/-
Module: Jcl.Proofs.LruKeys
Layer: Proofs
Purpose: Which entries a cache holds. A cache made from the descriptor of `jfs_lru_make_desc` uses the slot
  that the descriptor reserves for the promotion, so that it holds one entry more than requested. And
  where user functions keep one key a slot, the keys in a cache are the most recently accessed ones, so
  that a larger cache holds what a smaller one does.
Imports: Jcl.Lib.Recency, Jcl.Proofs.LruCache
Trusted boundary: human-reviewed spec (RoomOrHit, CapacityKept, KeyedUser, StoresKey, Hit)
Main exports: RoomOrHit, lru_capacity_iff, KeyedUser, LruStep.keys, lru_keys, lru_inclusion
-/
import Jcl.Lib.Recency
import Jcl.Proofs.LruCache

namespace Jcl

open Recency

section

variable {K C W : Type} {user : LruUser K C W} {s s' : LruState K C W} {key : K} {ctx : C} {w : W}
  {objSize objAlign objCount : UInt64} {desc : MlgDesc} {ptr : Addr}
  {log log' : List ((K × C) × List (LruCall (List UInt8) C))}

/-! ### The capacity that was requested -/

/-- With `objCount` entries in the cache, the access finds its key. -/
def RoomOrHit (user : LruUser K C W) (objCount : UInt64) (s : LruState K C W) (key : K) : Prop :=
  s.lru.count = objCount → ∃ e ∈ s.entries, user.cmp key e = 0

/-- The access leaves at most `objCount` entries, and if there were so many and none had the key, it evicted
    the least recently used one. -/
def CapacityKept (user : LruUser K C W) (objCount : UInt64) (s : LruState K C W) (key : K)
    (s' : LruState K C W) : Prop :=
  s'.lru.count ≤ objCount ∧ (s.lru.count = objCount → (∀ e ∈ s.entries, user.cmp key e ≠ 0) →
    ∃ rest e l, s.entries = rest ++ [e] ∧ s'.calls = s.calls ++ .evict e user.evictCtx :: l)

/-- The descriptor has one slot more than requested. -/
theorem jfsLruMakeDesc_count (h : jfsLruMakeDesc objSize objAlign objCount .ok = (desc, .ok)) :
    desc.count.toNat = objCount.toNat + 1 := by
  rw [jfsLruMakeDesc] at h
  split at h
  · cases (Prod.mk.inj h).2
  · -- A count that wraps around to 0 is not valid.
    rename_i hvalid
    rw [Bool.not_eq_true', Bool.not_eq_false, jfsMlgValidDesc_iff] at hvalid
    have hpos : 0 < (objCount + 1).toNat := hvalid.count
    have hlt := objCount.toNat_lt
    rw [← (Prod.mk.inj h).1]
    change (objCount + 1).toNat = objCount.toNat + 1
    rw [UInt64.toNat_add, UInt64.toNat_one] at hpos ⊢
    omega

variable [Build]

/-- An access within the requested capacity stays there exactly if there is room or a hit. -/
theorem LruInv.capacityKept_iff {c : MlgComponent} {r : LruList (List UInt8) W} (h : LruInv c user s r)
    (hcap : c.desc.count.toNat = objCount.toNat + 1) (hcount : s.lru.count ≤ objCount) :
    Returns (jfsLruAccess key ctx) s fun _ s' => (∃ r', LruInv c user s' r') ∧
      (CapacityKept user objCount s key s' ↔ RoomOrHit user objCount s key) := by
  refine (jfsLruAccess_spec h).mono fun _ s' hs' => ?_
  obtain ⟨l, r', hstep, h', hcalls⟩ := hs'
  refine ⟨⟨r', h'⟩, ?_⟩
  have hlen := h.count
  have hlen' := h'.count
  have hentries := h.entries_eq
  rw [UInt64.le_iff_toNat_le] at hcount
  simp only [CapacityKept, RoomOrHit, UInt64.le_iff_toNat_le, ← UInt64.toNat_inj]
  cases hstep with
  | @hit before after e v _ _ hmisses hhit =>
      -- The entry is there, and the number of entries stays the same.
      have hmem : e ∈ s.entries := by simp [hentries]
      simp only [List.length_cons, List.length_append] at hlen hlen'
      exact ⟨fun _ _ => ⟨e, hmem, hhit⟩, fun _ => ⟨by omega, fun _ hnew => absurd hhit (hnew e hmem)⟩⟩
  | @fresh entries v _ _ slot hmisses hroom =>
      have hnew : ∀ e ∈ s.entries, user.cmp key e ≠ 0 := by rwa [hentries]
      simp only [List.length_cons] at hlen hlen'
      refine ⟨fun hkept hfull => ?_, fun hroom => ?_⟩
      · have := hkept.1
        omega
      · have hless : s.lru.count.toNat ≠ objCount.toNat := fun hfull => by
          obtain ⟨e, he, hzero⟩ := hroom hfull
          exact hnew e he hzero
        exact ⟨by omega, fun hfull _ => absurd hfull hless⟩
  | @evict rest e slot v v' _ _ hmisses hfull hevict =>
      simp only [List.length_append, List.length_singleton] at hlen
      omega

/-- In every run of accesses that find room or their key, the requested capacity is kept; and in every state
    of such a run, the next access keeps it exactly if it finds room or its key. -/
theorem lru_capacity_iff (hmake : jfsLruMakeDesc objSize objAlign objCount .ok = (desc, .ok))
    (hfits : MlgComponent.Fits ⟨ptr, desc⟩)
    (run : ((lruSystem ⟨ptr, desc⟩ user w).restrict fun s l => RoomOrHit user objCount s l.1.1).Reaches log s) :
    s.lru.count ≤ objCount ∧ ∀ key ctx, ∃ s', (jfsLruAccess key ctx).run s = .ok ((), s') ∧
      (CapacityKept user objCount s key s' ↔ RoomOrHit user objCount s key) := by
  have hcap := jfsLruMakeDesc_count hmake
  have hinv : (∃ r, LruInv ⟨ptr, desc⟩ user s r) ∧ s.lru.count ≤ objCount := by
    refine run.invariant (P := fun s => (∃ r, LruInv ⟨ptr, desc⟩ user s r) ∧ s.lru.count ≤ objCount) ?_ ?_
    · rintro s ⟨⟨lruInit, hinit⟩, haccesses, -, -⟩
      have h := LruInv.of_init hfits hinit haccesses
      refine ⟨⟨_, h⟩, ?_⟩
      rw [UInt64.le_iff_toNat_le, h.count]
      exact Nat.zero_le _
    · rintro s ⟨⟨key, ctx⟩, calls⟩ s' ⟨⟨r, h⟩, hcount⟩ ⟨hroom, hrun, -⟩
      obtain ⟨hinv', hiff⟩ := (h.capacityKept_iff hcap hcount).det hrun
      exact ⟨hinv', (hiff.2 hroom).1⟩
  obtain ⟨⟨r, h⟩, hcount⟩ := hinv
  refine ⟨hcount, fun key ctx => ?_⟩
  obtain ⟨_, s', hrun, -, hiff⟩ : Returns (jfsLruAccess key ctx) s _ := h.capacityKept_iff hcap hcount
  exact ⟨s', hrun, hiff⟩

end

/-- The descriptor of the sample component is the one for one object of one byte. -/
theorem sampleLruDesc_made : jfsLruMakeDesc 1 1 1 .ok = (sampleLruComponent.desc, .ok) := by decide

/-- The cache for one object after one access. -/
def sampleLruFull [Build] : LruState UInt8 UInt8 Unit := stateAfter (jfsLruAccess 7 7) sampleLruState

/-- A first access finds room, and a second one with the same key is a hit. -/
theorem lru_capacity_iff_one : letI : Build := ⟨true⟩
    sampleLruFull.lru.count ≤ 1 ∧ ∃ s', (jfsLruAccess 7 8).run sampleLruFull = .ok ((), s') ∧
      CapacityKept sampleLruUser 1 sampleLruFull 7 s' := by
  let : Build := ⟨true⟩
  have hfits : sampleLruComponent.Fits := by decide
  obtain ⟨l, hrun, -⟩ := lruSystem_access hfits (.init sampleLruState_init) 7 7
  obtain ⟨l, hcalls⟩ : ∃ l, sampleLruFull.calls = sampleLruState.calls ++ l := ⟨_, rfl⟩
  have hroom : RoomOrHit sampleLruUser 1 sampleLruState 7 := fun hfull => absurd hfull (by decide)
  obtain ⟨hcount, hnext⟩ := lru_capacity_iff sampleLruDesc_made hfits
    (.step (.init sampleLruState_init) (l := ((7, 7), l)) ⟨hroom, hrun, hcalls⟩)
  obtain ⟨s', hs', hiff⟩ := hnext 7 8
  have hhit : RoomOrHit sampleLruUser 1 sampleLruFull 7 := fun _ => ⟨[7], by decide +kernel, by decide⟩
  exact ⟨hcount, s', hs', hiff.2 hhit⟩

/-- With one entry requested and one in the cache, an access with a new key evicts nothing, and there are two. -/
theorem lru_over_capacity : letI : Build := ⟨true⟩
    jfsLruMakeDesc 1 1 1 .ok = (sampleLruComponent.desc, .ok) ∧
      ∃ log s s', (lruSystem sampleLruComponent sampleLruUser ()).Reaches log s ∧ s.lru.count = 1 ∧
        (∀ e ∈ s.entries, sampleLruUser.cmp 8 e ≠ 0) ∧ (jfsLruAccess 8 8).run s = .ok ((), s') ∧
        s'.lru.count = 2 ∧ s'.calls = [.miss [0] 7, .miss [0] 8] := by
  let : Build := ⟨true⟩
  have hfits : sampleLruComponent.Fits := by decide
  obtain ⟨l, -, reached⟩ := lruSystem_access hfits (.init sampleLruState_init) 7 7
  obtain ⟨-, hrun, -⟩ := lruSystem_access hfits reached 8 8
  exact ⟨sampleLruDesc_made, _, _, _, reached, by decide +kernel, by decide +kernel, hrun, by decide +kernel, by decide +kernel⟩

section

variable {K C W : Type} {user : LruUser K C W}

/-! ### The keys in a cache -/

/-- A slot of `size` bytes holds at most one key: `cmp` finds it and `hit` keeps it. -/
structure KeyedUser (user : LruUser K C W) (size : Nat) (keyOf : List UInt8 → Option K) : Prop where
  cmp : ∀ key slot, slot.length = size → (user.cmp key slot = 0 ↔ keyOf slot = some key)
  hit : ∀ slot ctx w, slot.length = size → keyOf (user.hit.run slot ctx w).1 = keyOf slot

/-- With this context, `miss` stores the key in a slot of `size` bytes. -/
def StoresKey (user : LruUser K C W) (size : Nat) (keyOf : List UInt8 → Option K) (access : K × C) : Prop :=
  ∀ slot w, slot.length = size → keyOf (user.miss.run slot access.2 w).1 = some access.1

/-- The access was a hit. -/
def Hit (l : (K × C) × List (LruCall (List UInt8) C)) : Prop := ∃ slot, l.2 = [.hit slot l.1.2]

/-- An access moves its key to the front of the keys, and is a hit exactly if it was there. -/
theorem LruStep.keys [DecidableEq K] {size n : Nat} {keyOf : List UInt8 → Option K} {keys : List K}
    {r r' : LruList (List UInt8) W} {l : (K × C) × List (LruCall (List UInt8) C)}
    (hkeyed : KeyedUser user size keyOf) (hstores : StoresKey user size keyOf l.1)
    (h : LruStep (n + 1) user.fns r l r') (hsize : ∀ e ∈ r.entries, e.length = size)
    (hsize' : ∀ e ∈ r'.entries, e.length = size)
    (hkeys : r.entries.map keyOf = (keys.take (n + 1)).map some) :
    (Hit l ↔ l.1.1 ∈ keys.take (n + 1)) ∧
      r'.entries.map keyOf = ((touch l.1.1 keys).take (n + 1)).map some := by
  have hmem : ∀ k, k ∈ keys.take (n + 1) ↔ some k ∈ r.entries.map keyOf := fun k => by
    rw [hkeys, List.mem_map_of_injective (Option.some_injective K)]
  have hnone : user.fns.Misses l.1.1 r.entries → l.1.1 ∉ keys.take (n + 1) := fun hmisses hin => by
    rw [hmem, List.mem_map] at hin
    obtain ⟨e, he, hkey⟩ := hin
    exact hmisses e he ((hkeyed.cmp l.1.1 e (hsize e he)).2 hkey)
  have hlen : r.entries.length = (keys.take (n + 1)).length := by
    rw [← List.length_map keyOf, hkeys, List.length_map]
  cases h with
  | @hit before after e v key ctx hmisses hhit =>
      have hkey : keyOf e = some key := (hkeyed.cmp key e (hsize e (by simp))).1 hhit
      have hin : key ∈ keys.take (n + 1) := by
        rw [hmem, List.mem_map]
        exact ⟨e, by simp, hkey⟩
      have hbefore : some key ∉ before.map keyOf := fun hin => by
        rw [List.mem_map] at hin
        obtain ⟨e', he', hkey'⟩ := hin
        exact hmisses e' he' ((hkeyed.cmp key e' (hsize e' (by simp [he']))).2 hkey')
      refine ⟨⟨fun _ => hin, fun _ => ⟨e, rfl⟩⟩, ?_⟩
      rw [take_touch_of_mem hin, List.map_cons, List.map_cons, List.map_erase (Option.some_injective K), ← hkeys]
      simp only
      rw [List.map_append, List.map_append, List.map_cons, List.erase_append_right _ hbefore, hkey, List.erase_cons_head]
      exact congrArg (· :: _) ((hkeyed.hit e ctx v (hsize e (by simp))).trans hkey)
  | @fresh entries v key ctx slot hmisses hroom =>
      have hslot : slot.length = size := by
        rw [← user.miss.length_run slot ctx v]
        exact hsize' _ List.mem_cons_self
      refine ⟨⟨?_, fun hin => absurd hin (hnone hmisses)⟩, ?_⟩
      · rintro ⟨_, hcall⟩
        cases hcall
      · have hshort : (keys.take (n + 1)).length ≤ n := by
          rw [← hlen]
          exact Nat.le_of_lt_succ hroom
        rw [take_touch_of_not_mem (hnone hmisses), List.take_of_length_le hshort, List.map_cons, List.map_cons,
          ← hkeys]
        exact congrArg (· :: _) (hstores slot v hslot)
  | @evict rest e slot v v' key ctx hmisses hfull hevict =>
      have hslot : slot.length = size := by
        rw [← user.miss.length_run slot ctx v']
        exact hsize' _ List.mem_cons_self
      refine ⟨⟨?_, fun hin => absurd hin (hnone hmisses)⟩, ?_⟩
      · rintro ⟨_, hcall⟩
        cases hcall
      · have hrest : rest.length = n := Nat.succ_injective hfull
        rw [take_touch_of_not_mem (hnone hmisses), List.map_cons, List.map_cons, List.map_take, ← hkeys,
          ← List.map_take, List.take_left' hrest]
        exact congrArg (· :: _) (hstores slot v' hslot)

end

section

variable {K C W : Type} {user : LruUser K C W} {s s' : LruState K C W} {w w' : W}
  {c c' : MlgComponent} {keyOf : List UInt8 → Option K}
  {log log' : List ((K × C) × List (LruCall (List UInt8) C))}

variable [Build]

/-- The keys in a cache are the most recent ones that were accessed, as many as there is room for, and the hits
    are the accesses to one of them. -/
theorem lru_keys [DecidableEq K] (hkeyed : KeyedUser user c.desc.size.toNat keyOf) (hfits : c.Fits)
    (run : (lruSystem c user w).Reaches log s)
    (hstores : ∀ l ∈ log, StoresKey user c.desc.size.toNat keyOf l.1) :
    s.entries.map keyOf = ((recency (log.map (·.1.1))).take c.desc.count.toNat).map some ∧
      ∀ i (hi : i < log.length),
        Hit log[i] ↔ log[i].1.1 ∈ (recency ((log.map (·.1.1)).take i)).take c.desc.count.toNat := by
  induction run with
  | @init s hinit =>
      obtain ⟨⟨lruInit, hinit⟩, haccesses, -, -⟩ := hinit
      refine ⟨?_, fun i hi => absurd hi (Nat.not_lt_zero i)⟩
      rw [(LruInv.of_init hfits hinit haccesses).entries_eq, List.map_nil, List.map_nil, recency_nil, List.take_nil]
      rfl
  | @step log s s' l run hstep ih =>
      obtain ⟨⟨key, ctx⟩, calls⟩ := l
      obtain ⟨hkeys, hhits⟩ := ih fun l hl => hstores l (List.mem_append_left _ hl)
      obtain ⟨r, -, h⟩ := lruSystem_simulated hfits run
      obtain ⟨l, r', hlru, h', hl⟩ := (jfsLruAccess_spec h).det hstep.1
      obtain rfl : calls = l := List.append_cancel_left (hstep.2.symm.trans hl)
      obtain ⟨n, hn⟩ := Nat.exists_eq_succ_of_ne_zero h.valid.count.ne'
      rw [h.entries_eq, hn] at hkeys
      rw [hn] at hlru
      have hlast : StoresKey user c.desc.size.toNat keyOf (key, ctx) :=
        hstores _ (List.mem_append_right _ (List.mem_singleton_self _))
      obtain ⟨hhit, hkeys'⟩ := hlru.keys hkeyed hlast (fun _ => h.length_of_mem) (fun _ => h'.length_of_mem) hkeys
      rw [h'.entries_eq, List.map_append, List.map_singleton, recency_concat, hn]
      refine ⟨hkeys', fun i hi => ?_⟩
      rw [List.length_append, List.length_singleton] at hi
      rcases Nat.lt_or_eq_of_le (Nat.le_of_lt_succ hi) with hi | rfl
      · rw [List.getElem_append_left hi, List.take_append_of_le_length (by rw [List.length_map]; omega), ← hn]
        exact hhits i hi
      · rw [List.getElem_concat_length rfl, List.take_left' (List.length_map _)]
        exact hhit

/-- After the same accesses, the keys of the smaller cache are the first ones of the larger cache, no key is
    held twice, and an access that hits in the smaller cache hits in the larger one. -/
theorem lru_inclusion (hkeyed : KeyedUser user c.desc.size.toNat keyOf) (hsize : c.desc.size = c'.desc.size)
    (hcount : c.desc.count ≤ c'.desc.count) (hfits : c.Fits) (hfits' : c'.Fits)
    (run : (lruSystem c user w).Reaches log s) (run' : (lruSystem c' user w').Reaches log' s')
    (hsame : log.map Prod.fst = log'.map Prod.fst)
    (hstores : ∀ l ∈ log, StoresKey user c.desc.size.toNat keyOf l.1) :
    (∃ keys keys' : List K, s.entries.map keyOf = keys.map some ∧ s'.entries.map keyOf = keys'.map some ∧
      keys = keys'.take (min c.desc.count.toNat s'.lru.count.toNat) ∧ keys.Nodup ∧ keys'.Nodup) ∧
    ∀ i (hi : i < log.length) (hi' : i < log'.length), Hit log[i] → Hit log'[i] := by
  classical
  have hstores' : ∀ l ∈ log', StoresKey user c'.desc.size.toNat keyOf l.1 := fun l hl => by
    have hin : l.1 ∈ log'.map Prod.fst := List.mem_map_of_mem hl
    rw [← hsame, List.mem_map] at hin
    obtain ⟨l₀, hl₀, heq⟩ := hin
    rw [← heq, ← hsize]
    exact hstores l₀ hl₀
  obtain ⟨hkeys, hhits⟩ := lru_keys hkeyed hfits run hstores
  rw [hsize] at hkeyed
  obtain ⟨hkeys', hhits'⟩ := lru_keys hkeyed hfits' run' hstores'
  have haccessed : log.map (·.1.1) = log'.map (·.1.1) := by
    have hmap := congrArg (List.map Prod.fst) hsame
    rwa [List.map_map, List.map_map] at hmap
  have hle : c.desc.count.toNat ≤ c'.desc.count.toNat := UInt64.le_iff_toNat_le.1 hcount
  have hnodup := nodup_recency (log'.map (·.1.1))
  rw [haccessed] at hkeys hhits
  refine ⟨⟨_, _, hkeys, hkeys', ?_, hnodup.sublist (List.take_sublist _ _),
    hnodup.sublist (List.take_sublist _ _)⟩, fun i hi hi' hhit => ?_⟩
  · obtain ⟨r', -, h'⟩ := lruSystem_simulated hfits' run'
    have hlen : s'.lru.count.toNat = ((recency (log'.map (·.1.1))).take c'.desc.count.toNat).length := by
      rw [h'.count, ← h'.entries_eq, ← List.length_map keyOf, hkeys', List.length_map]
    rw [hlen, ← List.take_eq_take_min, List.take_take, Nat.min_eq_left hle]
  · have hkey : log[i].1.1 = log'[i].1.1 := by
      have hget := List.getElem_of_eq haccessed (by rwa [List.length_map])
      rwa [List.getElem_map, List.getElem_map] at hget
    have hin := (hhits i hi).1 hhit
    rw [hkey] at hin
    exact (hhits' i hi').2 (List.take_subset_take_left _ hle hin)

end

/-- One slot of one byte. -/
def smallLruComponent : MlgComponent := ⟨4096, ⟨1, 1, 1⟩⟩

/-- The smaller cache on zeroed memory. -/
def smallLruState : LruState UInt8 UInt8 Unit where
  lru := ⟨smallLruComponent.mb, 0, (sampleLruUser.conf smallLruComponent).fn, 0⟩
  mem := ⟨fun _ => 0, []⟩
  world := ()
  calls := []

theorem sampleLruUser_keyed : KeyedUser sampleLruUser 1 List.head? where
  cmp key slot hlen := by
    obtain ⟨a, rfl⟩ := List.length_eq_one_iff.1 hlen
    simp [sampleLruUser]
  hit _ _ _ _ := rfl

theorem sampleLruUser_stores (key : UInt8) : StoresKey sampleLruUser 1 List.head? (key, key) := by
  intro slot w hlen
  obtain ⟨a, rfl⟩ := List.length_eq_one_iff.1 hlen
  rfl

/-- An access with one and one with another key, to caches with one and with two slots. -/
theorem lru_inclusion_two : letI : Build := ⟨true⟩
    ∃ l₁ l₂ l₁' l₂' s s',
      (lruSystem smallLruComponent sampleLruUser ()).Reaches [((7, 7), l₁), ((8, 8), l₂)] s ∧
      (lruSystem sampleLruComponent sampleLruUser ()).Reaches [((7, 7), l₁'), ((8, 8), l₂')] s' ∧
      ∃ keys keys' : List UInt8, s.entries.map List.head? = keys.map some ∧
        s'.entries.map List.head? = keys'.map some ∧ keys = keys'.take (min 1 s'.lru.count.toNat) := by
  let : Build := ⟨true⟩
  have hfits : smallLruComponent.Fits := by decide
  have hfits' : sampleLruComponent.Fits := by decide
  have hinit : (lruSystem smallLruComponent sampleLruUser ()).init smallLruState :=
    ⟨⟨smallLruState.lru, rfl⟩, rfl, rfl, rfl⟩
  obtain ⟨l₁, -, run₁⟩ := lruSystem_access hfits (.init hinit) 7 7
  obtain ⟨l₂, -, run₂⟩ := lruSystem_access hfits run₁ 8 8
  obtain ⟨l₁', -, run₁'⟩ := lruSystem_access hfits' (.init sampleLruState_init) 7 7
  obtain ⟨l₂', -, run₂'⟩ := lruSystem_access hfits' run₁' 8 8
  have hsize : smallLruComponent.desc.size = sampleLruComponent.desc.size := rfl
  refine ⟨l₁, l₂, l₁', l₂', _, _, run₂, run₂', ?_⟩
  obtain ⟨⟨keys, keys', hkeys, hkeys', hprefix, -, -⟩, -⟩ :=
    lru_inclusion sampleLruUser_keyed hsize (by decide) hfits hfits' run₂ run₂' rfl fun l hl => by
      rcases List.mem_cons.1 hl with rfl | hl
      · exact sampleLruUser_stores 7
      · obtain rfl := List.mem_singleton.1 hl
        exact sampleLruUser_stores 8
  exact ⟨keys, keys', hkeys, hkeys', hprefix⟩

end Jcl
