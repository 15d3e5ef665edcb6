/-
Module: Jcl.Proofs.LruCache
Layer: Proofs
Purpose: `lru_cache.c` refines the reference list. `LruInv` says that the first `count` slots of the block
  are the entries of the list; each function has one specification that says what it does to the list,
  and the promotion in place is `ByteMemory.readSlots_moveToFront`.
Imports: Jcl.Lib.Slots, Jcl.Proofs.FreeList, Jcl.Proofs.Machine, Jcl.Spec.LruCache
Trusted boundary: human-reviewed spec (LruUser, lruSystem)
Main exports: LruUser, LruInv, lruPromote_spec, jfsLruAccess_spec, jfsLruFree_spec, lruSystem,
  lru_refines_reference
-/
import Jcl.Lib.Slots
import Jcl.Proofs.FreeList
import Jcl.Proofs.Machine
import Jcl.Spec.LruCache

namespace Jcl

open ByteMemory (InRange inRange_iff slotAddr toNat_slotAddr readSlots length_readSlots getElem_readSlots)

/-- The four functions of the user, all given, and the context for `evict`. -/
structure LruUser (K C W : Type) where
  cmp : K → List UInt8 → Int
  hit : SlotFn C W
  miss : SlotFn C W
  evict : SlotFn C W
  evictCtx : C

section

variable {K C W : Type} {c : MlgComponent} {user : LruUser K C W} {s s' : LruState K C W}
  {r : LruList (List UInt8) W} {key : K} {ctx : C} {i : Nat} {w : W}
  {log : List ((K × C) × List (LruCall (List UInt8) C))}

/-- The configuration with these functions. -/
def LruUser.conf (user : LruUser K C W) (c : MlgComponent) : LruConf K C W where
  component := c
  fn := { cmp := some user.cmp, hit := some user.hit, miss := some user.miss, evict := some user.evict }
  evictCtx := user.evictCtx

/-- The same functions for the reference list. -/
def LruUser.fns (user : LruUser K C W) : LruFns K C (List UInt8) W where
  cmp := user.cmp
  hit := user.hit.run
  miss := user.miss.run
  evict := user.evict.run
  evictCtx := user.evictCtx

/-- The accesses stay in the first `n` slots. -/
def Within (c : MlgComponent) (n : Nat) (accesses : List (Addr × Nat)) : Prop :=
  ∀ a ∈ accesses, ∀ x, InRange a.1 a.2 x →
    c.ptr.toNat ≤ x.toNat ∧ x.toNat < c.ptr.toNat + c.desc.size.toNat * n

theorem Within.mono {n m : Nat} {accesses : List (Addr × Nat)} (h : Within c n accesses) (hle : n ≤ m) :
    Within c m accesses := by
  intro a ha x hx
  have hbound := h a ha x hx
  have := Nat.mul_le_mul_left c.desc.size.toNat hle
  omega

theorem Within.append {n : Nat} {l m : List (Addr × Nat)} (h : Within c n l) (h' : Within c n m) :
    Within c n (l ++ m) := by
  intro a ha
  rcases List.mem_append.1 ha with ha | ha
  · exact h a ha
  · exact h' a ha

/-- The memory block of a component. -/
def MlgComponent.mb (c : MlgComponent) : Mb :=
  { basePtr := c.ptr, objSize := c.desc.size, capacity := c.desc.count }

theorem jfsMbIndex_eq (index : UInt64) :
    jfsMbIndex c.mb index = slotAddr c.ptr c.desc.size index.toNat := by
  rw [jfsMbIndex, slotAddr, UInt64.ofNat_toNat]
  rfl

/-- The first `count` slots of the block are the entries of the list. -/
structure LruInv (c : MlgComponent) (user : LruUser K C W) (s : LruState K C W)
    (r : LruList (List UInt8) W) : Prop where
  valid : c.desc.Valid
  fits : c.Fits
  mb : s.lru.mb = c.mb
  fn : s.lru.fn = (user.conf c).fn
  evictCtx : s.lru.evictCtx = user.evictCtx
  count : s.lru.count.toNat = r.entries.length
  le : r.entries.length ≤ c.desc.count.toNat
  entries : readSlots s.mem.bytes c.ptr c.desc.size r.entries.length = r.entries
  world : s.world = r.world
  within : Within c r.entries.length s.mem.accesses

theorem LruInv.size (h : LruInv c user s r) : 0 < c.desc.size.toNat := h.valid.size

theorem LruInv.bounds (h : LruInv c user s r) (hi : i < c.desc.count.toNat) :
    (slotAddr c.ptr c.desc.size i).toNat = c.ptr.toNat + c.desc.size.toNat * i ∧
      c.ptr.toNat + c.desc.size.toNat * i + c.desc.size.toNat ≤ 2 ^ 64 := by
  refine ⟨toNat_slotAddr h.size h.fits hi, ?_⟩
  have hle := Nat.mul_le_mul_left c.desc.size.toNat (Nat.succ_le_of_lt hi)
  rw [Nat.succ_eq_add_one, Nat.mul_add, Nat.mul_one] at hle
  have hfits : c.ptr.toNat + c.desc.size.toNat * c.desc.count.toNat ≤ 2 ^ 64 := h.fits
  omega

theorem LruInv.getElem (h : LruInv c user s r) (hi : i < r.entries.length) :
    s.mem.bytes.read (slotAddr c.ptr c.desc.size i) c.desc.size.toNat = r.entries[i] := by
  have hentries := h.entries
  have hi' : i < (readSlots s.mem.bytes c.ptr c.desc.size r.entries.length).length := by
    rwa [length_readSlots]
  rw [← getElem_readSlots s.mem.bytes c.ptr c.desc.size hi']
  exact List.getElem_of_eq hentries hi'

theorem LruInv.length_entry (h : LruInv c user s r) (hi : i < r.entries.length) :
    r.entries[i].length = c.desc.size.toNat := by
  rw [← h.getElem hi, ByteMemory.length_read]

theorem LruInv.length_of_mem (h : LruInv c user s r) {e : List UInt8} (he : e ∈ r.entries) :
    e.length = c.desc.size.toNat := by
  obtain ⟨i, hi, rfl⟩ := List.getElem_of_mem he
  exact h.length_entry hi

/-- A range of slots, as an access. -/
theorem LruInv.within_slots (h : LruInv c user s r) {n len : Nat} (hin : i < c.desc.count.toNat)
    (hlen : c.desc.size.toNat * i + len ≤ c.desc.size.toNat * n) (hn : n ≤ c.desc.count.toNat) :
    Within c n [(slotAddr c.ptr c.desc.size i, len)] := by
  intro a ha x hx
  obtain rfl := List.mem_singleton.1 ha
  have hle := Nat.mul_le_mul_left c.desc.size.toNat hn
  have hfits : c.ptr.toNat + c.desc.size.toNat * c.desc.count.toNat ≤ 2 ^ 64 := h.fits
  have haddr := (h.bounds hin).1
  rw [inRange_iff (by simp only; omega)] at hx
  simp only at hx
  omega

theorem LruInv.within_slot (h : LruInv c user s r) (hi : i < r.entries.length) :
    Within c r.entries.length [(slotAddr c.ptr c.desc.size i, c.desc.size.toNat)] := by
  refine h.within_slots (Nat.lt_of_lt_of_le hi h.le) ?_ h.le
  have hle := Nat.mul_le_mul_left c.desc.size.toNat (Nat.succ_le_of_lt hi)
  rwa [Nat.succ_eq_add_one, Nat.mul_add, Nat.mul_one] at hle

/-! ### One slot -/

/-- The comparator reads the entry. -/
theorem callCmpFn_spec (h : LruInv c user s r) (hi : i < r.entries.length) :
    Returns (callCmpFn key (slotAddr c.ptr c.desc.size i)) s fun z s' =>
      z = user.cmp key r.entries[i] ∧ LruInv c user s' r ∧ s'.calls = s.calls := by
  simp only [callCmpFn, returns_bind, returns_get, h.fn, LruUser.conf, Memory.load, h.mb, MlgComponent.mb,
    returns_set, returns_pure]
  refine ⟨by rw [h.getElem hi], ?_, trivial⟩
  exact { h with within := h.within.append (h.within_slot hi) }

/-- A user function replaces the entry. -/
theorem callSlotFn_spec (fn : SlotFn C W) (call : List UInt8 → C → LruCall (List UInt8) C) (ctx : C)
    (h : LruInv c user s r) (hi : i < r.entries.length) :
    Returns (callSlotFn (some fn) call (slotAddr c.ptr c.desc.size i) ctx) s fun _ s' =>
      LruInv c user s' ⟨r.entries.set i (fn.run r.entries[i] ctx r.world).1,
        (fn.run r.entries[i] ctx r.world).2⟩ ∧ s'.calls = s.calls ++ [call r.entries[i] ctx] := by
  have hlen : (fn.run r.entries[i] ctx r.world).1.length = c.desc.size.toNat := by
    rw [fn.length_run, h.length_entry hi]
  simp only [callSlotFn, returns_bind, returns_get, Memory.load, Memory.store, h.mb, MlgComponent.mb,
    returns_set, h.getElem hi, h.world]
  refine ⟨⟨h.valid, h.fits, h.mb, h.fn, h.evictCtx, ?_, ?_, ?_, rfl, ?_⟩, trivial⟩
  · rw [List.length_set]
    exact h.count
  · rw [List.length_set]
    exact h.le
  · rw [List.length_set, ByteMemory.readSlots_write_slot _ h.size h.fits h.le
      (Nat.lt_of_lt_of_le hi h.le) hlen, h.entries]
  · rw [List.length_set, hlen]
    exact (h.within.append (h.within_slot hi)).append (h.within_slot hi)

/-- `lru_promote` moves the entry to the front. -/
theorem lruPromote_spec {index : UInt64} (h : LruInv c user s r) (hi : index.toNat < r.entries.length) :
    Returns (lruPromote index) s fun _ s' =>
      LruInv c user s' ⟨r.entries[index.toNat] :: r.entries.eraseIdx index.toNat, r.world⟩ ∧
        s'.calls = s.calls := by
  have hcount := Nat.lt_of_lt_of_le hi h.le
  have hle : c.desc.size.toNat * index.toNat + c.desc.size.toNat ≤
      c.desc.size.toNat * r.entries.length := by
    have := Nat.mul_le_mul_left c.desc.size.toNat (Nat.succ_le_of_lt hi)
    rwa [Nat.succ_eq_add_one, Nat.mul_add, Nat.mul_one] at this
  have hcap := Nat.mul_le_mul_left c.desc.size.toNat h.le
  have hfits : c.ptr.toNat + c.desc.size.toNat * c.desc.count.toNat ≤ 2 ^ 64 := h.fits
  have hmul : (c.desc.size * index).toNat = c.desc.size.toNat * index.toNat := by
    have := h.size
    rw [UInt64.toNat_mul, Nat.mod_eq_of_lt (by omega)]
  have hlength : (r.entries[index.toNat] :: r.entries.eraseIdx index.toNat).length = r.entries.length := by
    rw [List.length_cons, List.length_eraseIdx_of_lt hi]
    omega
  have htemp : (s.mem.bytes.read (slotAddr c.ptr c.desc.size index.toNat) c.desc.size.toNat).take
      c.desc.size.toNat = s.mem.bytes.read (slotAddr c.ptr c.desc.size index.toNat) c.desc.size.toNat :=
    List.take_of_length_le (by rw [ByteMemory.length_read])
  simp only [lruPromote, returns_bind, returns_get, returns_set, h.mb, jfsMbRead, jfsMbRemap, jfsMbWrite,
    Memory.load, Memory.store, jfsMbIndex_eq]
  change LruInv c user ⟨s.lru, ⟨((s.mem.bytes.write (slotAddr c.ptr c.desc.size 1) (s.mem.bytes.read
    (slotAddr c.ptr c.desc.size 0) (c.desc.size * index).toNat)).write (slotAddr c.ptr c.desc.size 0) _), _⟩,
    s.world, s.calls⟩ _ ∧ _
  simp only [MlgComponent.mb, hmul, htemp, ByteMemory.length_read]
  refine ⟨⟨h.valid, h.fits, h.mb, h.fn, h.evictCtx, ?_, ?_, ?_, h.world, ?_⟩, trivial⟩
  · rw [hlength]
    exact h.count
  · rw [hlength]
    exact h.le
  · rw [hlength]
    have hfront := ByteMemory.readSlots_moveToFront s.mem.bytes h.size h.fits h.le hi
    rw [h.entries, h.getElem hi] at hfront
    rw [h.getElem hi, ← hfront, ByteMemory.moveToFront, h.getElem hi]
  · rw [hlength]
    have hlow : Within c r.entries.length [(slotAddr c.ptr c.desc.size 0, c.desc.size.toNat * index.toNat)] :=
      h.within_slots (by omega) (by omega) h.le
    have hhigh : Within c r.entries.length [(slotAddr c.ptr c.desc.size 1, c.desc.size.toNat * index.toNat)] := by
      rcases Nat.eq_zero_or_pos index.toNat with hzero | hpos
      · intro a ha x hx
        obtain rfl := List.mem_singleton.1 ha
        rw [hzero, Nat.mul_zero] at hx
        exact absurd hx (Nat.not_lt_zero _)
      · exact h.within_slots (by omega) (by omega) h.le
    have hfront := h.within_slot (i := 0) (by omega)
    exact ((((h.within.append (h.within_slot hi)).append hlow).append hhigh).append hfront)

/-! ### The calls -/

/-- The loop of `jfs_lru_access` from entry `i` on: either it finds the key, and that was a hit, or no entry
    has the key. -/
theorem lruAccessLoop_spec {n : Nat} {index : UInt64} (h : LruInv c user s r)
    (hn : index.toNat + n = r.entries.length) (hmisses : user.fns.Misses key (r.entries.take index.toNat)) :
    Returns (lruAccessLoop key ctx n index) s fun found s' =>
      (found = true ∧ ∃ l r', LruStep c.desc.count.toNat user.fns r ((key, ctx), l) r' ∧ LruInv c user s' r' ∧
        s'.calls = s.calls ++ l) ∨
      (found = false ∧ user.fns.Misses key r.entries ∧ LruInv c user s' r ∧ s'.calls = s.calls) := by
  induction n generalizing index s with
  | zero =>
      simp only [lruAccessLoop, returns_pure]
      rw [List.take_of_length_le (by omega)] at hmisses
      exact Or.inr ⟨trivial, hmisses, h, trivial⟩
  | succ n ih =>
      have hi : index.toNat < r.entries.length := by omega
      simp only [lruAccessLoop, returns_bind, returns_get, returns_ite, returns_pure, h.mb, jfsMbIndex_eq]
      refine (callCmpFn_spec h hi).mono fun z s₁ hz => ?_
      obtain ⟨rfl, h₁, hcalls₁⟩ := hz
      refine ⟨fun hzero => ?_, fun hne => ?_⟩
      · -- The entry has the key.
        have hstep : LruStep c.desc.count.toNat user.fns r ((key, ctx), [.hit r.entries[index.toNat] ctx]) _ :=
          LruStep.hit_at hi hmisses hzero
        rw [h.fn]
        refine (callSlotFn_spec user.hit .hit ctx h₁ hi).mono fun _ s₂ hs₂ => ?_
        obtain ⟨h₂, hcalls₂⟩ := hs₂
        rw [hcalls₁] at hcalls₂
        refine ⟨fun hfront => ?_, fun hfront => Or.inl ⟨trivial, _, _, hstep, ?_, hcalls₂⟩⟩
        · refine (lruPromote_spec h₂ (by rwa [List.length_set])).mono fun _ s₃ hs₃ => ?_
          obtain ⟨h₃, hcalls₃⟩ := hs₃
          refine Or.inl ⟨trivial, _, _, hstep, ?_, hcalls₃.trans hcalls₂⟩
          rw [List.getElem_set_self, List.eraseIdx_set_eq] at h₃
          exact h₃
        · have hindex : index.toNat = 0 := by
            have hzero : index = 0 := not_not.1 hfront
            rw [hzero]
            rfl
          obtain ⟨entries, world⟩ := r
          cases entries with
          | nil => exact absurd hi (Nat.not_lt_zero _)
          | cons e rest =>
              simp only [hindex, List.getElem_cons_zero, List.set_cons_zero, List.eraseIdx_cons_zero] at h₂ ⊢
              exact h₂
      · have hlt := index.toNat_lt
        have hle := h.le
        have hcount := c.desc.count.toNat_lt
        have hsucc : (index + 1).toNat = index.toNat + 1 := by
          rw [UInt64.toNat_add, UInt64.toNat_one, Nat.mod_eq_of_lt (by omega)]
        refine (ih h₁ (by omega) ?_).mono fun found s₂ hs₂ => ?_
        · intro e he
          rw [hsucc, List.take_succ_eq_append_getElem hi, List.mem_append, List.mem_singleton] at he
          rcases he with he | rfl
          · exact hmisses e he
          · exact hne
        · rwa [hcalls₁] at hs₂

/-- `jfs_lru_free` evicts the entries in order. -/
theorem lruFreeLoop_spec {n : Nat} {index : UInt64} (h : LruInv c user s r)
    (hn : index.toNat + n = r.entries.length) :
    Returns (lruFreeLoop n index) s fun _ s' =>
      s'.calls = s.calls ++ (r.entries.drop index.toNat).map (.evict · user.evictCtx) ∧
        Within c r.entries.length s'.mem.accesses := by
  induction n generalizing index s r with
  | zero =>
      simp only [lruFreeLoop, returns_pure]
      rw [List.drop_of_length_le (by omega)]
      exact ⟨by simp, h.within⟩
  | succ n ih =>
      have hi : index.toNat < r.entries.length := by omega
      have hlt := c.desc.count.toNat_lt
      have hle := h.le
      have hsucc : (index + 1).toNat = index.toNat + 1 := by
        rw [UInt64.toNat_add, UInt64.toNat_one, Nat.mod_eq_of_lt (by omega)]
      simp only [lruFreeLoop, returns_bind, returns_get, h.mb, jfsMbIndex_eq, h.fn, h.evictCtx]
      refine (callSlotFn_spec user.evict .evict user.evictCtx h hi).mono fun _ s₁ hs₁ => ?_
      obtain ⟨h₁, hcalls₁⟩ := hs₁
      refine (ih h₁ (by rw [List.length_set]; omega)).mono fun _ s₂ hs₂ => ?_
      obtain ⟨hcalls₂, hwithin₂⟩ := hs₂
      rw [List.length_set] at hwithin₂
      rw [hsucc, List.drop_set_of_lt (Nat.lt_succ_self _), hcalls₁] at hcalls₂
      refine ⟨?_, hwithin₂⟩
      rw [hcalls₂, List.drop_eq_getElem_cons hi, List.map_cons, List.append_assoc, List.singleton_append]

theorem jfsLruFree_spec (h : LruInv c user s r) :
    Returns jfsLruFree s fun _ s' => s'.calls = s.calls ++ r.entries.map (.evict · user.evictCtx) ∧
      Within c r.entries.length s'.mem.accesses := by
  have hloop : Returns (lruFreeLoop r.entries.length 0) s _ := lruFreeLoop_spec h (Nat.zero_add _)
  simp only [jfsLruFree, returns_bind, returns_get, h.count]
  exact hloop

/-- The entries of the cache: the first `count` slots of its block. -/
def LruState.entries (s : LruState K C W) : List (List UInt8) :=
  readSlots s.mem.bytes s.lru.mb.basePtr s.lru.mb.objSize s.lru.count.toNat

theorem LruInv.entries_eq (h : LruInv c user s r) : s.entries = r.entries := by
  rw [LruState.entries, h.mb, h.count]
  exact h.entries

/-- An accepted component is valid, and the cache starts empty. -/
theorem LruInv.of_init {lruInit : Lru K C W} (hfits : c.Fits)
    (hinit : jfsLruInit lruInit (user.conf c) .ok = (s.lru, .ok)) (haccesses : s.mem.accesses = []) :
    LruInv c user s ⟨[], s.world⟩ := by
  by_cases hvalid : jfsMlgValidComponent c = true
  · have hdesc := ((jfsMlgValidComponent_iff c).1 hvalid).1
    have hlru : s.lru = { mb := c.mb, count := 0, fn := (user.conf c).fn, evictCtx := user.evictCtx } := by
      simpa [jfsLruInit, lruValidFn, LruUser.conf, jfsMbInit, hvalid, MlgComponent.mb, eq_comm] using hinit
    refine ⟨hdesc, hfits, by rw [hlru], by rw [hlru], by rw [hlru], by rw [hlru]; rfl, Nat.zero_le _, rfl, rfl, ?_⟩
    rw [haccesses]
    exact fun a ha => absurd ha List.not_mem_nil
  · simp [jfsLruInit, lruValidFn, LruUser.conf, jfsMbInit, hvalid] at hinit

variable [Build]

/-- The slot for a new entry is the last one of a list `entries ++ [e]`: a fresh one, or the one of the last
    entry after it was evicted. -/
theorem lruTakeSlot_spec (h : LruInv c user s r) :
    Returns lruTakeSlot s fun slot s' => ∃ entries e w' l,
      slot = slotAddr c.ptr c.desc.size entries.length ∧ LruInv c user s' ⟨entries ++ [e], w'⟩ ∧
      s'.calls = s.calls ++ l ∧
      ((r = ⟨entries, w'⟩ ∧ entries.length < c.desc.count.toNat ∧ l = []) ∨
        ∃ e₀ w₀, r = ⟨entries ++ [e₀], w₀⟩ ∧ entries.length + 1 = c.desc.count.toNat ∧
          user.fns.evict e₀ user.fns.evictCtx w₀ = (e, w') ∧ l = [.evict e₀ user.fns.evictCtx]) := by
  obtain ⟨entries, w₀⟩ := r
  have hcount : s.lru.count.toNat = entries.length := h.count
  have hle : entries.length ≤ c.desc.count.toNat := h.le
  have hlt := c.desc.count.toNat_lt
  simp only [lruTakeSlot, returns_bind, returns_get, returns_ite, returns_modify, returns_pure, h.mb,
    jfsMbIndex_eq, returns_assert]
  refine ⟨fun hroom => ?_, fun hfull => ⟨fun _ => ?_, ?_⟩⟩
  · -- The next slot is fresh.
    have hroom' : s.lru.count.toNat < c.desc.count.toNat := UInt64.lt_iff_toNat_lt.1 hroom
    have hlength : (entries ++ [s.mem.bytes.read (slotAddr c.ptr c.desc.size entries.length)
        c.desc.size.toNat]).length = entries.length + 1 := by simp
    refine ⟨entries, s.mem.bytes.read (slotAddr c.ptr c.desc.size entries.length) c.desc.size.toNat, w₀, [],
      by rw [hcount], ⟨h.valid, h.fits, rfl, h.fn, h.evictCtx, ?_, ?_, ?_, h.world, ?_⟩, by simp,
      Or.inl ⟨rfl, by omega, rfl⟩⟩
    · rw [hlength, UInt64.toNat_add, UInt64.toNat_one, Nat.mod_eq_of_lt (by omega), hcount]
    · rw [hlength]
      omega
    · rw [hlength, ByteMemory.readSlots_succ]
      exact congrArg (· ++ _) h.entries
    · rw [hlength]
      exact h.within.mono (Nat.le_succ _)
  · have hcap : ¬ s.lru.count.toNat < c.desc.count.toNat := fun hroom => hfull (UInt64.lt_iff_toNat_lt.2 hroom)
    exact decide_eq_true (UInt64.toNat_inj.1 (by change s.lru.count.toNat = c.desc.count.toNat; omega))
  · -- The last entry makes room.
    have hcap : ¬ s.lru.count.toNat < c.desc.count.toNat := fun hroom => hfull (UInt64.lt_iff_toNat_lt.2 hroom)
    have hpos := h.valid.count
    obtain ⟨rest, e₀, rfl⟩ : ∃ rest e₀, entries = rest ++ [e₀] := by
      rcases List.eq_nil_or_concat' entries with rfl | hconcat
      · simp at hcount
        omega
      · exact hconcat
    rw [List.length_append, List.length_singleton] at hcount hle
    have hindex : (s.lru.count - 1).toNat = rest.length := by
      rw [WordAlign.toNat_pred (by omega), hcount]
      rfl
    have hi : rest.length < (rest ++ [e₀]).length := by simp
    rw [h.fn, h.evictCtx, hindex]
    refine (callSlotFn_spec user.evict .evict user.evictCtx h hi).mono
      fun _ s₁ hs₁ => ?_
    obtain ⟨h₁, hcalls₁⟩ := hs₁
    simp only [List.getElem_concat_length, List.set_append_right _ _ (Nat.le_refl _), Nat.sub_self,
      List.set_cons_zero] at h₁ hcalls₁
    exact ⟨rest, _, _, _, rfl, h₁, hcalls₁, Or.inr ⟨e₀, w₀, rfl, by omega, rfl, rfl⟩⟩

/-- An access is a step of the reference list. -/
theorem jfsLruAccess_spec (h : LruInv c user s r) :
    Returns (jfsLruAccess key ctx) s fun _ s' => ∃ l r',
      LruStep c.desc.count.toNat user.fns r ((key, ctx), l) r' ∧ LruInv c user s' r' ∧
        s'.calls = s.calls ++ l := by
  simp only [jfsLruAccess, returns_bind, returns_get, returns_ite, returns_pure, h.count]
  have hnone : user.fns.Misses key (r.entries.take (0 : UInt64).toNat) := fun e he => by simp at he
  refine (lruAccessLoop_spec h (Nat.zero_add _) hnone).mono fun found s₁ hs₁ => ?_
  obtain ⟨hfound, hhit⟩ | ⟨hfound, hmisses, h₁, hcalls₁⟩ := hs₁
  · exact ⟨fun _ => hhit, fun hnot => absurd hfound hnot⟩
  · refine ⟨fun hyes => ?_, fun _ => (lruTakeSlot_spec h₁).mono fun slot s₂ hs₂ => ?_⟩
    · rw [hfound] at hyes
      cases hyes
    · obtain ⟨entries, e, w', l, rfl, h₂, hcalls₂, hcases⟩ := hs₂
      have hi : entries.length < (entries ++ [e]).length := by simp
      have hcount₂ : s₂.lru.count.toNat = entries.length + 1 := by
        rw [h₂.count, List.length_append, List.length_singleton]
      have hindex : (s₂.lru.count - 1).toNat = entries.length := by
        rw [WordAlign.toNat_pred (by omega), hcount₂]
        rfl
      rw [h₂.fn]
      refine (callSlotFn_spec user.miss .miss ctx h₂ hi).mono fun _ s₃ hs₃ => ?_
      obtain ⟨h₃, hcalls₃⟩ := hs₃
      simp only [List.getElem_concat_length, List.set_append_right _ _ (Nat.le_refl _), Nat.sub_self,
        List.set_cons_zero] at h₃ hcalls₃
      refine (lruPromote_spec h₃ (by rw [hindex]; simp)).mono fun _ s₄ hs₄ => ?_
      obtain ⟨h₄, hcalls₄⟩ := hs₄
      simp only [hindex, List.getElem_concat_length, List.eraseIdx_append_of_length_le (Nat.le_refl _),
        Nat.sub_self, List.eraseIdx_cons_zero, List.append_nil] at h₄
      refine ⟨l ++ [.miss e ctx], _, ?_, h₄, by rw [hcalls₄, hcalls₃, hcalls₂, hcalls₁, List.append_assoc]⟩
      rcases hcases with ⟨rfl, hroom, rfl⟩ | ⟨e₀, w₀, rfl, hfull, hevict, rfl⟩
      · exact .fresh e hmisses hroom
      · exact .evict hmisses hfull hevict

/-! ### Runs -/

/-- The runs of accesses on a cache that `jfs_lru_init` set up on the component, with any contents of its
    memory. The label of an access has its arguments and the user functions it called. -/
def lruSystem (c : MlgComponent) (user : LruUser K C W) (w : W) :
    System (LruState K C W) ((K × C) × List (LruCall (List UInt8) C)) where
  init s := (∃ lruInit, jfsLruInit lruInit (user.conf c) .ok = (s.lru, .ok)) ∧ s.mem.accesses = [] ∧
    s.world = w ∧ s.calls = []
  step s l s' := (jfsLruAccess l.1.1 l.1.2).run s = .ok ((), s') ∧ s'.calls = s.calls ++ l.2

/-- Every run is one of the reference list. -/
theorem lruSystem_simulated (hfits : c.Fits) (run : (lruSystem c user w).Reaches log s) :
    ∃ r, (lruReference c.desc.count.toNat user.fns w).Reaches log r ∧ LruInv c user s r := by
  refine run.simulation ?_ ?_
  · rintro s ⟨⟨lruInit, hinit⟩, haccesses, rfl, -⟩
    exact ⟨⟨[], s.world⟩, rfl, .of_init hfits hinit haccesses⟩
  · rintro s r ⟨⟨key, ctx⟩, calls⟩ s' h ⟨hrun, hcalls⟩
    obtain ⟨l, r', hstep, h', hl⟩ := (jfsLruAccess_spec h).det hrun
    obtain rfl : calls = l := List.append_cancel_left (hcalls.symm.trans hl)
    exact ⟨r', hstep, h'⟩

/-- A run goes on with any access. -/
theorem lruSystem_access (hfits : c.Fits) (run : (lruSystem c user w).Reaches log s) (key : K) (ctx : C) :
    ∃ l, (jfsLruAccess key ctx).run s = .ok ((), stateAfter (jfsLruAccess key ctx) s) ∧
      (lruSystem c user w).Reaches (log ++ [((key, ctx), l)]) (stateAfter (jfsLruAccess key ctx) s) := by
  obtain ⟨r, -, h⟩ := lruSystem_simulated hfits run
  obtain ⟨_, s', hrun, l, r', -, -, hcalls⟩ : Returns (jfsLruAccess key ctx) s _ := jfsLruAccess_spec h
  have hstate : stateAfter (jfsLruAccess key ctx) s = s' := by rw [stateAfter, hrun]
  rw [hstate]
  exact ⟨l, hrun, .step run ⟨hrun, hcalls⟩⟩

/-- In every run, from any contents of the component: the run is one of the reference list, whose entries are
    the first `count` slots; every address read or written is in these slots, which are in the component;
    every further access returns; and `jfs_lru_free` evicts each entry once, in order. -/
theorem lru_refines_reference (hfits : c.Fits) (run : (lruSystem c user w).Reaches log s) :
    ∃ r, (lruReference c.desc.count.toNat user.fns w).Reaches log r ∧ s.entries = r.entries ∧
      s.world = r.world ∧ s.lru.count.toNat = r.entries.length ∧ s.lru.count ≤ c.desc.count ∧
      Within c s.lru.count.toNat s.mem.accesses ∧
      (∀ key ctx, ∃ s', (jfsLruAccess key ctx).run s = .ok ((), s')) ∧
      ∃ s', jfsLruFree.run s = .ok ((), s') ∧
        s'.calls = s.calls ++ r.entries.map (.evict · user.evictCtx) ∧
        Within c s.lru.count.toNat s'.mem.accesses := by
  obtain ⟨r, hrun, h⟩ := lruSystem_simulated hfits run
  refine ⟨r, hrun, h.entries_eq, h.world, h.count, ?_, ?_, fun key ctx => ?_, ?_⟩
  · rw [UInt64.le_iff_toNat_le, h.count]
    exact h.le
  · rw [h.count]
    exact h.within
  · obtain ⟨_, s', hrun, -⟩ : Returns (jfsLruAccess key ctx) s _ := jfsLruAccess_spec h
    exact ⟨s', hrun⟩
  · rw [h.count]
    obtain ⟨_, s', hrun, hfree⟩ := jfsLruFree_spec h
    exact ⟨s', hrun, hfree⟩

end

/-- Two slots of one byte. -/
def sampleLruComponent : MlgComponent := ⟨4096, ⟨1, 1, 2⟩⟩

/-- The context of an access is the byte that a miss stores. -/
def sampleLruUser : LruUser UInt8 UInt8 Unit where
  cmp key slot := if slot = [key] then 0 else 1
  hit := ⟨fun slot _ w => (slot, w), fun _ _ _ => rfl⟩
  miss := ⟨fun slot ctx w => (slot.map fun _ => ctx, w), fun _ _ _ => List.length_map _⟩
  evict := ⟨fun slot _ w => (slot, w), fun _ _ _ => rfl⟩
  evictCtx := 0

/-- The cache on zeroed memory. -/
def sampleLruState : LruState UInt8 UInt8 Unit where
  lru := ⟨sampleLruComponent.mb, 0, (sampleLruUser.conf sampleLruComponent).fn, 0⟩
  mem := ⟨fun _ => 0, []⟩
  world := ()
  calls := []

theorem sampleLruState_init [Build] : (lruSystem sampleLruComponent sampleLruUser ()).init sampleLruState :=
  ⟨⟨sampleLruState.lru, rfl⟩, rfl, rfl, rfl⟩

/-- One access to the empty cache. -/
theorem lru_refines_reference_one : letI : Build := ⟨true⟩
    ∃ s l, (lruSystem sampleLruComponent sampleLruUser ()).Reaches [((7, 7), l)] s ∧
      ∃ r, (lruReference 2 sampleLruUser.fns ()).Reaches [((7, 7), l)] r ∧ s.entries = r.entries ∧
        s.lru.count.toNat = r.entries.length ∧ Within sampleLruComponent s.lru.count.toNat s.mem.accesses := by
  let : Build := ⟨true⟩
  have hfits : sampleLruComponent.Fits := by decide
  have run₀ := System.Reaches.init sampleLruState_init
  obtain ⟨_, -, -, -, -, -, -, haccess, -⟩ := lru_refines_reference hfits run₀
  obtain ⟨s, hs⟩ := haccess 7 7
  have run₁ := System.Reaches.step run₀ (l := ((7, 7), s.calls)) ⟨hs, rfl⟩
  obtain ⟨r, hr, hentries, -, hcount, -, hwithin, -⟩ := lru_refines_reference hfits run₁
  exact ⟨s, s.calls, run₁, r, hr, hentries, hcount, hwithin⟩

end Jcl
