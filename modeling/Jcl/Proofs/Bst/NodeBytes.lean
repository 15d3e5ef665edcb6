/-
Module: Jcl.Proofs.Bst.NodeBytes
Layer: Proofs
Purpose: The memory of the nodes, which the tree sees field by field, as bytes: the words of `jfs_bst_node_t` one after
  the other, and behind them, at `value_offset`, the `value_size` bytes of the value. Whatever is written to the
  fields and the values of the slots and of the sentinel, in any order, the bytes show it.
Imports: Jcl.Lib.Cells, Jcl.Proofs.Bst.Runs
Trusted boundary: human-reviewed spec (NodeField, NodeWrite, NodeSpace, ShowsNodes)
Main exports: NodeWrite, NodeSpace, nodeCells, ShowsNodes, nodes_are_bytes
-/
import Jcl.Lib.Cells
import Jcl.Proofs.Bst.Runs

namespace Jcl

open WordAlign
open RedBlack (Dir)
open ByteMemory (InRange slotAddr toNat_slotAddr)

/-- The words of `jfs_bst_node_t`. -/
inductive NodeField where
  | parentColor
  | right
  | left
  | list
deriving DecidableEq, Repr

/-- The place of a word in the structure. -/
def NodeField.offset : NodeField → UInt64
  | .parentColor => 0
  | .right => 8
  | .left => 16
  | .list => 24

theorem NodeField.offset_le (f : NodeField) : f.offset.toNat + 8 ≤ 32 := by cases f <;> decide

theorem NodeField.offset_apart {f g : NodeField} (h : f ≠ g) :
    f.offset.toNat + 8 ≤ g.offset.toNat ∨ g.offset.toNat + 8 ≤ f.offset.toNat := by
  revert h
  cases f <;> cases g <;> decide

section

variable {V : Type}

/-- A word of a node. -/
def NodeMemory.field (m : NodeMemory V) (p : Addr) : NodeField → UInt64
  | .parentColor => m.parentColor p
  | .right => m.right p
  | .left => m.left p
  | .list => m.list p

def NodeMemory.setField (m : NodeMemory V) (p : Addr) (v : UInt64) : NodeField → NodeMemory V
  | .parentColor => { m with parentColor := Function.update m.parentColor p v }
  | .right => { m with right := Function.update m.right p v }
  | .left => { m with left := Function.update m.left p v }
  | .list => { m with list := Function.update m.list p v }

theorem NodeMemory.field_setField (m : NodeMemory V) (p q : Addr) (v : UInt64) (f g : NodeField) :
    (m.setField p v f).field q g = if q = p ∧ g = f then v else m.field q g := by
  cases f <;> cases g <;> simp [setField, field, Function.update_apply]

end

/-- What the tree writes: a word of a node, or the value of a slot. -/
inductive NodeWrite where
  | field (p : Addr) (f : NodeField) (v : UInt64)
  | value (p : Addr) (bytes : List UInt8)

/-- The memory of the nodes after a write. -/
def NodeWrite.apply (valueOffset : UInt64) (m : NodeMemory (List UInt8)) : NodeWrite → NodeMemory (List UInt8)
  | .field p f v => m.setField p v f
  | .value p bytes => { m with value := Function.update m.value (p + valueOffset) bytes }

/-- The bytes after a write. -/
def NodeWrite.applyBytes (valueOffset : UInt64) (m : ByteMemory) : NodeWrite → ByteMemory
  | .field p f v => m.storeWord (p + f.offset) v
  | .value p bytes => m.write (p + valueOffset) bytes

/-- The words of the slots and of the sentinel are written, and values of the right size, which only slots have. -/
def NodeWrite.Among (slots : List Addr) (nilStorage : Addr) (valueSize : Nat) : NodeWrite → Prop
  | .field p _ _ => p ∈ nilStorage :: slots
  | .value p bytes => p ∈ slots ∧ bytes.length = valueSize

/-- The slots have room for a value, and `nil_storage` is outside the component. -/
structure NodeSpace (c : MlgComponent) (nilStorage : Addr) : Prop where
  valid : jfsMlgValidComponent c = true
  fits : c.Fits
  room : roundUp 32 c.desc.align.toNat < c.desc.size.toNat
  nil_ne_null : nilStorage ≠ null
  nil_fits : nilStorage.toNat + 32 ≤ 2 ^ 64
  nil_apart : nilStorage.toNat + 32 ≤ c.ptr.toNat ∨
    c.ptr.toNat + c.desc.size.toNat * c.desc.count.toNat ≤ nilStorage.toNat

/-- The bytes show the nodes. -/
structure ShowsNodes (slots : List Addr) (nilStorage : Addr) (valueOffset : UInt64) (valueSize : Nat)
    (m : NodeMemory (List UInt8)) (mem : ByteMemory) : Prop where
  field : ∀ p ∈ nilStorage :: slots, ∀ f : NodeField, mem.loadWord (p + f.offset) = m.field p f
  value : ∀ p ∈ slots, mem.read (p + valueOffset) valueSize = m.value (p + valueOffset)

variable {c : MlgComponent} {nilStorage p q : Addr}

/-! ### The cells -/

theorem NodeSpace.size_pos (h : NodeSpace c nilStorage) : 0 < c.desc.size.toNat :=
  ((jfsMlgValidComponent_iff c).1 h.valid).1.size

/-- How many bytes belong to a node. -/
def MlgComponent.nodeSpan (c : MlgComponent) (nilStorage p : Addr) : Nat :=
  if p = nilStorage then 32 else c.desc.size.toNat

/-- A slot is in the component. -/
theorem NodeSpace.slot_bounds (h : NodeSpace c nilStorage) (hp : p ∈ c.slots) :
    c.ptr.toNat ≤ p.toNat ∧
      p.toNat + c.desc.size.toNat ≤ c.ptr.toNat + c.desc.size.toNat * c.desc.count.toNat := by
  obtain ⟨i, hi, rfl⟩ := mem_slots.1 hp
  have haddr := toNat_slotAddr h.size_pos h.fits hi
  have hnext : c.desc.size.toNat * (i + 1) ≤ c.desc.size.toNat * c.desc.count.toNat := Nat.mul_le_mul_left _ hi
  rw [Nat.mul_add, Nat.mul_one] at hnext
  omega

theorem NodeSpace.nil_ne (h : NodeSpace c nilStorage) (hp : p ∈ c.slots) : p ≠ nilStorage := by
  rintro rfl
  have hbounds := h.slot_bounds hp
  have hapart := h.nil_apart
  have hpos := h.size_pos
  omega

/-- Two slots do not overlap. -/
theorem NodeSpace.slots_apart (h : NodeSpace c nilStorage) (hp : p ∈ c.slots) (hq : q ∈ c.slots) (hne : p ≠ q) :
    p.toNat + c.desc.size.toNat ≤ q.toNat ∨ q.toNat + c.desc.size.toNat ≤ p.toNat := by
  obtain ⟨i, hi, rfl⟩ := mem_slots.1 hp
  obtain ⟨j, hj, rfl⟩ := mem_slots.1 hq
  rw [toNat_slotAddr h.size_pos h.fits hi, toNat_slotAddr h.size_pos h.fits hj]
  rcases Nat.lt_trichotomy i j with hlt | rfl | hlt
  · have hnext := Nat.mul_le_mul_left c.desc.size.toNat (Nat.succ_le_of_lt hlt)
    rw [Nat.succ_eq_add_one, Nat.mul_add, Nat.mul_one] at hnext
    omega
  · exact absurd rfl hne
  · have hnext := Nat.mul_le_mul_left c.desc.size.toNat (Nat.succ_le_of_lt hlt)
    rw [Nat.succ_eq_add_one, Nat.mul_add, Nat.mul_one] at hnext
    omega

/-- Two nodes do not overlap. -/
theorem NodeSpace.nodes_apart (h : NodeSpace c nilStorage) (hp : p ∈ nilStorage :: c.slots)
    (hq : q ∈ nilStorage :: c.slots) (hne : p ≠ q) :
    p.toNat + c.nodeSpan nilStorage p ≤ q.toNat ∨ q.toNat + c.nodeSpan nilStorage q ≤ p.toNat := by
  have hapart := h.nil_apart
  unfold MlgComponent.nodeSpan
  rcases List.mem_cons.1 hp with hpnil | hpslot
  · rcases List.mem_cons.1 hq with hqnil | hqslot
    · exact absurd (hpnil.trans hqnil.symm) hne
    · have hbounds := h.slot_bounds hqslot
      rw [if_pos hpnil, if_neg (h.nil_ne hqslot), hpnil]
      omega
  · have hbounds := h.slot_bounds hpslot
    rcases List.mem_cons.1 hq with hqnil | hqslot
    · rw [if_neg (h.nil_ne hpslot), if_pos hqnil, hqnil]
      omega
    · rw [if_neg (h.nil_ne hpslot), if_neg (h.nil_ne hqslot)]
      exact h.slots_apart hpslot hqslot hne

theorem NodeSpace.span_fits (h : NodeSpace c nilStorage) (hp : p ∈ nilStorage :: c.slots) :
    32 ≤ c.nodeSpan nilStorage p ∧ p.toNat + c.nodeSpan nilStorage p ≤ 2 ^ 64 := by
  obtain ⟨hdesc, -⟩ := (jfsMlgValidComponent_iff c).1 h.valid
  have hheader : 32 ≤ roundUp 32 c.desc.align.toNat := le_roundUp 32 hdesc.align_pos
  have hroom := h.room
  unfold MlgComponent.nodeSpan
  rcases List.mem_cons.1 hp with rfl | hp
  · rw [if_pos rfl]
    exact ⟨Nat.le_refl 32, h.nil_fits⟩
  · have hbounds := h.slot_bounds hp
    have hfits : c.ptr.toNat + c.desc.size.toNat * c.desc.count.toNat ≤ 2 ^ 64 := h.fits
    rw [if_neg (h.nil_ne hp)]
    omega

/-- A word of a node, or the value of a slot. -/
def NodeCell (slots : List Addr) (nilStorage : Addr) : Type :=
  { cell : Addr × Option NodeField // cell.1 ∈ nilStorage :: slots ∧ (cell.2 = none → cell.1 ∈ slots) }

instance {slots : List Addr} {nilStorage : Addr} : DecidableEq (NodeCell slots nilStorage) :=
  inferInstanceAs (DecidableEq (Subtype _))

/-- The place of a cell in its node. -/
def cellOffset (valueOffset : UInt64) : Option NodeField → UInt64
  | some f => f.offset
  | none => valueOffset

def cellLen (valueSize : Nat) : Option NodeField → Nat
  | some _ => 8
  | none => valueSize

/-- The values are behind the words, up to the end of the slot. -/
structure ValuesAt (c : MlgComponent) (valueOffset : UInt64) (valueSize : Nat) : Prop where
  offset : valueOffset.toNat = roundUp 32 c.desc.align.toNat
  size : valueOffset.toNat + valueSize = c.desc.size.toNat

variable {valueOffset : UInt64} {valueSize : Nat}

/-- A cell is in its node. -/
theorem NodeSpace.cell_inside (h : NodeSpace c nilStorage) (hvalues : ValuesAt c valueOffset valueSize)
    (cell : NodeCell c.slots nilStorage) :
    (cellOffset valueOffset cell.1.2).toNat + cellLen valueSize cell.1.2 ≤ c.nodeSpan nilStorage cell.1.1 ∧
      (cellOffset valueOffset cell.1.2).toNat < c.nodeSpan nilStorage cell.1.1 := by
  obtain ⟨⟨p, kind⟩, hp, hslot⟩ := cell
  have hspan : 32 ≤ c.nodeSpan nilStorage p := (h.span_fits hp).1
  cases kind with
  | some f =>
      have hle := f.offset_le
      change f.offset.toNat + 8 ≤ c.nodeSpan nilStorage p ∧ f.offset.toNat < c.nodeSpan nilStorage p
      omega
  | none =>
      have hsize : c.nodeSpan nilStorage p = c.desc.size.toNat := if_neg (h.nil_ne (hslot rfl))
      have hroom := h.room
      rw [← hvalues.offset] at hroom
      change valueOffset.toNat + valueSize ≤ c.nodeSpan nilStorage p ∧ valueOffset.toNat < c.nodeSpan nilStorage p
      rw [hsize, hvalues.size]
      exact ⟨Nat.le_refl _, hroom⟩

theorem NodeSpace.toNat_cell (h : NodeSpace c nilStorage) (hvalues : ValuesAt c valueOffset valueSize)
    (cell : NodeCell c.slots nilStorage) : (cell.1.1 + cellOffset valueOffset cell.1.2).toNat =
      cell.1.1.toNat + (cellOffset valueOffset cell.1.2).toNat := by
  have hinside := (h.cell_inside hvalues cell).2
  have hfits := (h.span_fits cell.2.1).2
  rw [UInt64.toNat_add, Nat.mod_eq_of_lt (by omega)]

/-- The cells of a tree. -/
def nodeCells (h : NodeSpace c nilStorage) (hvalues : ValuesAt c valueOffset valueSize) :
    Cells (NodeCell c.slots nilStorage) where
  addr cell := cell.1.1 + cellOffset valueOffset cell.1.2
  len cell := cellLen valueSize cell.1.2
  fits cell := by
    have hinside := (h.cell_inside hvalues cell).1
    have hfits := (h.span_fits cell.2.1).2
    rw [h.toNat_cell hvalues]
    omega
  apart cell cell' hne := by
    have hinside := (h.cell_inside hvalues cell).1
    have hinside' := (h.cell_inside hvalues cell').1
    rw [h.toNat_cell hvalues, h.toNat_cell hvalues]
    obtain ⟨⟨p, kind⟩, hp, hslot⟩ := cell
    obtain ⟨⟨q, kind'⟩, hq, hslot'⟩ := cell'
    by_cases hpq : p = q
    · -- Cells of one node.
      subst hpq
      have hheader : 32 ≤ valueOffset.toNat := by
        rw [hvalues.offset]
        exact le_roundUp 32 ((jfsMlgValidComponent_iff c).1 h.valid).1.align_pos
      cases kind with
      | some f =>
          cases kind' with
          | some g =>
              have hfg : f ≠ g := by
                rintro rfl
                exact hne rfl
              have hapart := NodeField.offset_apart hfg
              change p.toNat + f.offset.toNat + 8 ≤ p.toNat + g.offset.toNat ∨
                p.toNat + g.offset.toNat + 8 ≤ p.toNat + f.offset.toNat
              omega
          | none =>
              have hle := f.offset_le
              left
              change p.toNat + f.offset.toNat + 8 ≤ p.toNat + valueOffset.toNat
              omega
      | none =>
          cases kind' with
          | some g =>
              have hle := g.offset_le
              right
              change p.toNat + g.offset.toNat + 8 ≤ p.toNat + valueOffset.toNat
              omega
          | none => exact absurd rfl hne
    · have hapart := h.nodes_apart hp hq hpq
      change p.toNat + c.nodeSpan nilStorage p ≤ q.toNat ∨ q.toNat + c.nodeSpan nilStorage q ≤ p.toNat at hapart
      change (cellOffset valueOffset kind).toNat + cellLen valueSize kind ≤ c.nodeSpan nilStorage p at hinside
      change (cellOffset valueOffset kind').toNat + cellLen valueSize kind' ≤ c.nodeSpan nilStorage q at hinside'
      change p.toNat + (cellOffset valueOffset kind).toNat + cellLen valueSize kind ≤
          q.toNat + (cellOffset valueOffset kind').toNat ∨
        q.toNat + (cellOffset valueOffset kind').toNat + cellLen valueSize kind' ≤
          p.toNat + (cellOffset valueOffset kind).toNat
      omega

/-! ### Writes -/

/-- The cell of a write. -/
def NodeWrite.cell {slots : List Addr} {valueSize : Nat} (write : NodeWrite)
    (h : write.Among slots nilStorage valueSize) : NodeCell slots nilStorage :=
  match write, h with
  | .field p f _, hp => ⟨(p, some f), hp, fun hnone => absurd hnone (Option.some_ne_none f)⟩
  | .value p _, hp => ⟨(p, none), List.mem_cons_of_mem nilStorage hp.1, fun _ => hp.1⟩

/-- What is written to it. -/
def NodeWrite.bytes : NodeWrite → List UInt8
  | .field _ _ v => ByteMemory.wordBytes v
  | .value _ bytes => bytes

/-- The words and the values that the bytes show, cell by cell. -/
def cellShown (m : NodeMemory (List UInt8)) (valueOffset : UInt64) (p : Addr) (bytes : List UInt8) :
    Option NodeField → Prop
  | some f => ByteMemory.wordOfBytes bytes = m.field p f
  | none => bytes = m.value (p + valueOffset)

variable {m : NodeMemory (List UInt8)} {mem : ByteMemory} {write : NodeWrite} {writes : List NodeWrite}

theorem showsNodes_iff (h : NodeSpace c nilStorage) (hvalues : ValuesAt c valueOffset valueSize) :
    ShowsNodes c.slots nilStorage valueOffset valueSize m mem ↔
      ∀ cell, cellShown m valueOffset cell.1.1 ((nodeCells h hvalues).contents mem cell) cell.1.2 := by
  constructor
  · rintro hshows ⟨⟨p, kind⟩, hp, hslot⟩
    cases kind with
    | some f => exact hshows.field p hp f
    | none => exact hshows.value p (hslot rfl)
  · intro hcells
    refine ⟨fun p hp f => ?_, fun p hp => ?_⟩
    · exact hcells ⟨(p, some f), hp, fun hnone => absurd hnone (Option.some_ne_none f)⟩
    · exact hcells ⟨(p, none), List.mem_cons_of_mem nilStorage hp, fun _ => hp⟩

/-- A write to the bytes is one to its cell. -/
theorem applyBytes_eq_store (mem : ByteMemory) (h : NodeSpace c nilStorage) (hvalues : ValuesAt c valueOffset valueSize)
    (hwrite : write.Among c.slots nilStorage valueSize) :
    write.applyBytes valueOffset mem = (nodeCells h hvalues).store mem (write.cell hwrite) write.bytes ∧
      write.bytes.length = (nodeCells h hvalues).len (write.cell hwrite) := by
  cases write with
  | field p f v => exact ⟨rfl, ByteMemory.length_wordBytes v⟩
  | value p bytes => exact ⟨rfl, hwrite.2⟩

theorem NodeMemory.value_setField (m : NodeMemory (List UInt8)) (p : Addr) (v : UInt64) (f : NodeField) :
    (m.setField p v f).value = m.value := by cases f <;> rfl

/-- What a write does to the cell that it is on. -/
theorem cellShown_apply_self (hwrite : write.Among c.slots nilStorage valueSize) :
    cellShown (write.apply valueOffset m) valueOffset (write.cell hwrite).1.1 write.bytes (write.cell hwrite).1.2 := by
  cases write with
  | field p f v =>
      change ByteMemory.wordOfBytes (ByteMemory.wordBytes v) = (m.setField p v f).field p f
      rw [ByteMemory.wordOfBytes_wordBytes, NodeMemory.field_setField, if_pos ⟨rfl, rfl⟩]
  | value p bytes =>
      change bytes = Function.update m.value (p + valueOffset) bytes (p + valueOffset)
      rw [Function.update_self]

/-- The other cells stay as they are. -/
theorem cellShown_apply_of_ne (hwrite : write.Among c.slots nilStorage valueSize) {cell : NodeCell c.slots nilStorage}
    (hne : cell ≠ write.cell hwrite) {bytes : List UInt8} (h : cellShown m valueOffset cell.1.1 bytes cell.1.2) :
    cellShown (write.apply valueOffset m) valueOffset cell.1.1 bytes cell.1.2 := by
  have hpair : cell.1 ≠ (write.cell hwrite).1 := fun heq => hne (Subtype.ext heq)
  obtain ⟨⟨q, kind⟩, hq, hslot⟩ := cell
  cases write with
  | field p f v =>
      cases kind with
      | some g =>
          have hother : ¬ (q = p ∧ g = f) := by
            rintro ⟨rfl, rfl⟩
            exact hpair rfl
          change _ = (m.setField p v f).field q g
          rw [NodeMemory.field_setField, if_neg hother]
          exact h
      | none =>
          change _ = (m.setField p v f).value (q + valueOffset)
          rw [NodeMemory.value_setField]
          exact h
  | value p written =>
      cases kind with
      | some g => cases g <;> exact h
      | none =>
          have hother : q + valueOffset ≠ p + valueOffset := by
            rw [ne_eq, UInt64.add_left_inj]
            rintro rfl
            exact hpair rfl
          change _ = Function.update m.value (p + valueOffset) written (q + valueOffset)
          rw [Function.update_of_ne hother]
          exact h

/-- A write, seen in the fields and in the bytes. -/
theorem ShowsNodes.apply (hshows : ShowsNodes c.slots nilStorage valueOffset valueSize m mem)
    (h : NodeSpace c nilStorage) (hvalues : ValuesAt c valueOffset valueSize)
    (hwrite : write.Among c.slots nilStorage valueSize) :
    ShowsNodes c.slots nilStorage valueOffset valueSize (write.apply valueOffset m)
      (write.applyBytes valueOffset mem) := by
  obtain ⟨hstore, hlen⟩ := applyBytes_eq_store mem h hvalues hwrite
  rw [showsNodes_iff h hvalues] at hshows ⊢
  intro cell
  rw [hstore, (nodeCells h hvalues).contents_store hlen]
  by_cases hcell : cell = write.cell hwrite
  · rw [hcell, Function.update_self]
    exact cellShown_apply_self hwrite
  · rw [Function.update_of_ne hcell]
    exact cellShown_apply_of_ne hwrite hcell (hshows cell)

/-- A write changes no byte outside the nodes. -/
theorem applyBytes_outside (h : NodeSpace c nilStorage) (hvalues : ValuesAt c valueOffset valueSize)
    (hwrite : write.Among c.slots nilStorage valueSize) {x : Addr}
    (hx : ∀ p ∈ nilStorage :: c.slots, ¬ InRange p (c.nodeSpan nilStorage p) x) :
    write.applyBytes valueOffset mem x = mem x := by
  obtain ⟨hstore, hlen⟩ := applyBytes_eq_store mem h hvalues hwrite
  rw [hstore]
  refine (nodeCells h hvalues).store_outside hlen fun hin => ?_
  have hnode := (write.cell hwrite).2.1
  have hinside := (h.cell_inside hvalues (write.cell hwrite)).1
  refine hx _ hnode ((ByteMemory.inRange_iff (h.span_fits hnode).2 x).2 ?_)
  have hbounds := (ByteMemory.inRange_iff ((nodeCells h hvalues).fits (write.cell hwrite)) x).1 hin
  have haddr : ((nodeCells h hvalues).addr (write.cell hwrite)).toNat =
      (write.cell hwrite).1.1.toNat + (cellOffset valueOffset (write.cell hwrite).1.2).toNat :=
    h.toNat_cell hvalues (write.cell hwrite)
  have hlength : (nodeCells h hvalues).len (write.cell hwrite) = cellLen valueSize (write.cell hwrite).1.2 := rfl
  omega

/-! ### The calls that write -/

/-- An assignment to a field of a node, or a call of the functions that set its parent word or pack its value. -/
inductive NodeCall where
  | child (d : Dir) (p q : Addr)
  | list (p q : Addr)
  | parent (p q : Addr)
  | color (p : Addr) (tag : UInt64)
  | parentColor (p q : Addr) (tag : UInt64)
  | pack (p : Addr) (value : List UInt8)

def NodeCall.node : NodeCall → Addr
  | .child _ p _ | .list p _ | .parent p _ | .color p _ | .parentColor p _ _ | .pack p _ => p

/-- The write of a call, where the parent word of the node is this one. -/
def NodeCall.toWrite (word : UInt64) : NodeCall → NodeWrite
  | .child .left p q => .field p .left q
  | .child .right p q => .field p .right q
  | .list p q => .field p .list q
  | .parent p q => .field p .parentColor (q ||| (word &&& 1))
  | .color p tag => .field p .parentColor ((word &&& ~~~1) ||| tag)
  | .parentColor p q tag => .field p .parentColor (q ||| tag)
  | .pack p value => .value p value

/-- The call on bytes. -/
def NodeCall.runBytes (valueOffset : UInt64) (mem : ByteMemory) (call : NodeCall) : ByteMemory :=
  (call.toWrite (mem.loadWord call.node)).applyBytes valueOffset mem

/-- What the asserts and the sizes ask for. -/
def NodeCall.Among (slots : List Addr) (nilStorage : Addr) (valueSize : Nat) : NodeCall → Prop
  | .child _ p _ => p ∈ nilStorage :: slots
  | .list p _ => p ∈ nilStorage :: slots
  | .parent p q => p ∈ nilStorage :: slots ∧ q ≠ null
  | .color p tag => p ∈ nilStorage :: slots ∧ (tag = bstRed ∨ tag = bstBlack)
  | .parentColor p q tag => p ∈ nilStorage :: slots ∧ q ≠ null ∧ (tag = bstRed ∨ tag = bstBlack)
  | .pack p value => p ∈ slots ∧ value.length = valueSize

theorem NodeCall.Among.toWrite {call : NodeCall} {slots : List Addr} (h : call.Among slots nilStorage valueSize)
    (word : UInt64) : (call.toWrite word).Among slots nilStorage valueSize := by
  cases call with
  | child d p q => cases d <;> exact h
  | list p q => exact h
  | parent p q => exact h.1
  | color p tag => exact h.1
  | parentColor p q tag => exact h.1
  | pack p value => exact h

theorem NodeCall.Among.node_mem {call : NodeCall} {slots : List Addr} (h : call.Among slots nilStorage valueSize) :
    call.node ∈ nilStorage :: slots := by
  cases call with
  | child d p q => exact h
  | list p q => exact h
  | parent p q => exact h.1
  | color p tag => exact h.1
  | parentColor p q tag => exact h.1
  | pack p value => exact List.mem_cons_of_mem nilStorage h.1

theorem NodeSpace.ne_null (h : NodeSpace c nilStorage) (hp : p ∈ nilStorage :: c.slots) : p ≠ null := by
  rcases List.mem_cons.1 hp with rfl | hslot
  · exact h.nil_ne_null
  · rintro rfl
    exact null_not_mem_slots h.size_pos h.fits ((jfsMlgValidComponent_iff c).1 h.valid).2 hslot

/-- What the call does to bytes that show the nodes. -/
theorem ShowsNodes.runBytes (hshows : ShowsNodes c.slots nilStorage valueOffset valueSize m mem)
    (h : NodeSpace c nilStorage) (hvalues : ValuesAt c valueOffset valueSize)
    {call : NodeCall} (hcall : call.Among c.slots nilStorage valueSize) :
    ShowsNodes c.slots nilStorage valueOffset valueSize
        ((call.toWrite (m.parentColor call.node)).apply valueOffset m) (call.runBytes valueOffset mem) ∧
      ∀ x, (∀ p ∈ nilStorage :: c.slots, ¬ InRange p (c.nodeSpan nilStorage p) x) →
        call.runBytes valueOffset mem x = mem x := by
  have hword : mem.loadWord call.node = m.parentColor call.node := by
    have hfield := hshows.field call.node hcall.node_mem .parentColor
    rwa [NodeField.offset, UInt64.add_zero] at hfield
  have hwrite := hcall.toWrite (m.parentColor call.node)
  rw [NodeCall.runBytes, hword]
  exact ⟨hshows.apply h hvalues hwrite, fun x hx => applyBytes_outside h hvalues hwrite hx⟩

section

variable {K : Type} [Build] {t t₀ : Bst K (List UInt8)} {conf : BstConf K (List UInt8)}
  {cmp : K → List UInt8 → Int} {call : NodeCall} {calls : List NodeCall}

def NodeCall.run : NodeCall → BstM K (List UInt8) Unit
  | .child d p q => writeChild d p q
  | .list p q => writeList p q
  | .parent p q => bstSetParent p q
  | .color p tag => bstSetColor p tag
  | .parentColor p q tag => bstSetParentColor p q tag
  | .pack p value => do let _ ← bstPackNode p value

/-- One call after the other. -/
def runCalls : List NodeCall → BstM K (List UInt8) Unit
  | [] => pure ()
  | call :: calls => do
      call.run
      runCalls calls

/-- A call makes its write. -/
theorem NodeCall.run_spec (h : NodeSpace c nilStorage) (hoff : 0 < t.valueOffset)
    (hcall : call.Among c.slots nilStorage valueSize) :
    Returns call.run t fun _ t' =>
      t' = { t with mem := (call.toWrite (t.mem.parentColor call.node)).apply t.valueOffset t.mem } := by
  have hp : call.node ≠ null := h.ne_null hcall.node_mem
  cases call with
  | child d p q =>
      change Returns (writeChild d p q) t _
      rw [returns_writeChild]
      refine ⟨hp, ?_⟩
      cases d <;> rfl
  | list p q =>
      change Returns (writeList p q) t _
      rw [returns_writeList]
      exact ⟨hp, rfl⟩
  | parent p q =>
      change Returns (bstSetParent p q) t _
      rw [returns_bstSetParent]
      exact ⟨hp, fun _ => hcall.2, rfl⟩
  | color p tag =>
      change Returns (bstSetColor p tag) t _
      rw [returns_bstSetColor]
      exact ⟨hp, fun _ => hcall.2, rfl⟩
  | parentColor p q tag =>
      change Returns (bstSetParentColor p q tag) t _
      rw [returns_bstSetParentColor]
      exact ⟨hp, fun _ => hcall.2.1, fun _ => hcall.2.2, rfl⟩
  | pack p value =>
      change Returns (bstPackNode p value >>= fun _ => pure ()) t _
      rw [returns_bind, returns_bstPackNode hoff, returns_pure]
      rfl

/-- Any such calls, one after the other. -/
theorem runCalls_spec (h : NodeSpace c nilStorage) (hvalues : ValuesAt c valueOffset valueSize)
    (hpos : 0 < valueOffset) (hoff : t.valueOffset = valueOffset)
    (hshows : ShowsNodes c.slots nilStorage valueOffset valueSize t.mem mem)
    (hcalls : ∀ call ∈ calls, call.Among c.slots nilStorage valueSize) :
    Returns (runCalls calls) t fun _ t' =>
      ShowsNodes c.slots nilStorage valueOffset valueSize t'.mem (calls.foldl (NodeCall.runBytes valueOffset) mem) ∧
        ∀ x, (∀ p ∈ nilStorage :: c.slots, ¬ InRange p (c.nodeSpan nilStorage p) x) →
          calls.foldl (NodeCall.runBytes valueOffset) mem x = mem x := by
  induction calls generalizing t mem with
  | nil => exact returns_pure.2 ⟨hshows, fun _ _ => rfl⟩
  | cons call calls ih =>
      have hcall := hcalls call List.mem_cons_self
      subst hoff
      refine Returns.bind_of (NodeCall.run_spec h hpos hcall) ?_
      rintro _ t' ht'
      obtain ⟨hshows', hkeeps⟩ := hshows.runBytes h hvalues hcall
      have hoff' : t'.valueOffset = t.valueOffset := by rw [ht']
      have hmem : t'.mem = (call.toWrite (t.mem.parentColor call.node)).apply t.valueOffset t.mem := by rw [ht']
      rw [← hmem] at hshows'
      refine (ih hoff' hshows' fun other hother => hcalls other (List.mem_cons_of_mem call hother)).mono ?_
      rintro _ t'' ⟨hshows'', houtside⟩
      exact ⟨hshows'', fun x hx => (houtside x hx).trans (hkeeps x hx)⟩

/-- After any such calls on a tree that `jfs_bst_init` set up, the bytes show the fields and the values, and no byte
    outside the nodes has changed. -/
theorem nodes_are_bytes (h : NodeSpace conf.component nilStorage) (hinit : Initialized t₀ nilStorage conf cmp t)
    (hshows : ShowsNodes conf.component.slots nilStorage t.valueOffset t.valueSize.toNat t.mem mem)
    (hcalls : ∀ call ∈ calls, call.Among conf.component.slots nilStorage t.valueSize.toNat) :
    Returns (runCalls calls) t fun _ t' =>
      ShowsNodes conf.component.slots nilStorage t.valueOffset t.valueSize.toNat t'.mem
          (calls.foldl (NodeCall.runBytes t.valueOffset) mem) ∧
        ∀ x, (∀ p ∈ nilStorage :: conf.component.slots, ¬ InRange p (conf.component.nodeSpan nilStorage p) x) →
          calls.foldl (NodeCall.runBytes t.valueOffset) mem x = mem x := by
  have hroom := h.room
  have hle : t.valueOffset ≤ conf.component.desc.size := by
    rw [UInt64.le_iff_toNat_le, hinit.valueOffset]
    exact Nat.le_of_lt hroom
  have hvalues : ValuesAt conf.component t.valueOffset t.valueSize.toNat := by
    refine ⟨hinit.valueOffset, ?_⟩
    rw [hinit.valueSize, UInt64.toNat_sub_of_le _ _ hle, hinit.valueOffset]
    omega
  have hpos := hinit.offset_pos ((jfsMlgValidComponent_iff _).1 h.valid).1.align
  exact runCalls_spec h hvalues hpos rfl hshows hcalls

end

/-- Two slots for values of 8 bytes, which are compared by their first byte. -/
def bytesConf : BstConf Int (List UInt8) where
  component := ⟨4096, ⟨40, 8, 2⟩⟩
  cmp := some fun key value => sampleCmp key (value.headD 0).toNat

def bytesRecord : Bst Int (List UInt8) where
  mem := ⟨fun _ => 0, fun _ => 0, fun _ => 0, fun _ => 0, fun _ => List.replicate 8 0⟩
  root := null
  nil := null
  cache := ⟨null, null, null⟩
  cmp := none
  valueOffset := 0
  valueSize := 0
  freeList := ⟨null, 0⟩

/-- Its memory after `jfs_bst_init`, with the sentinel at 8. -/
def bytesMemory : ByteMemory :=
  (((ByteMemory.storeWord (fun _ => 0) 8 9).storeWord 16 8).storeWord 24 8).storeWord 4136 4096

/-- A value is packed, and its node gets a colour, a parent and a child. -/
def bytesCalls : List NodeCall :=
  [.pack 4136 [1, 2, 3, 4, 5, 6, 7, 8], .parentColor 4136 8 bstRed, .color 4136 bstBlack, .child .left 4136 4096]

theorem nodes_are_bytes_pack : letI : Build := ⟨true⟩
    ∃ t, (jfsBstInit 8 bytesConf .ok).run bytesRecord = .ok (.ok, t) ∧
      Returns (runCalls bytesCalls) t fun _ t' => ∃ mem : ByteMemory,
        ShowsNodes bytesConf.component.slots 8 32 8 t'.mem mem ∧ mem.loadWord 4136 = 9 ∧
          mem.read 4168 8 = [1, 2, 3, 4, 5, 6, 7, 8] ∧ mem 4176 = 0 := by
  let : Build := ⟨true⟩
  let t := stateAfter (jfsBstInit 8 bytesConf .ok) bytesRecord
  have hrun : (jfsBstInit 8 bytesConf .ok).run bytesRecord = .ok (.ok, t) := run_of_resultOf (by decide +kernel)
  have hinit := ((jfsBstInit_spec (by decide) rfl (by decide) (by decide)).det hrun).2
  have hslots : bytesConf.component.slots = [4096, 4136] := by decide
  have hoff : t.valueOffset = 32 := by decide +kernel
  have hsize : t.valueSize.toNat = 8 := by decide +kernel
  have hspace : NodeSpace bytesConf.component 8 :=
    ⟨by decide, by decide, by decide, by decide, by decide, by decide⟩
  have hshows : ShowsNodes bytesConf.component.slots 8 t.valueOffset t.valueSize.toNat t.mem bytesMemory := by
    rw [hslots, hoff, hsize]
    constructor
    · intro p hp f
      simp only [List.mem_cons, List.not_mem_nil, or_false] at hp
      rcases hp with rfl | rfl | rfl
      all_goals cases f <;> decide +kernel
    · intro p hp
      simp only [List.mem_cons, List.not_mem_nil, or_false] at hp
      rcases hp with rfl | rfl
      all_goals decide +kernel
  have hamong : ∀ call ∈ bytesCalls, call.Among bytesConf.component.slots 8 t.valueSize.toNat := by
    rw [hslots, hsize]
    simp [bytesCalls, NodeCall.Among, bstRed, null]
  have hcalls := nodes_are_bytes hspace hinit hshows hamong
  rw [hoff, hsize] at hcalls
  refine ⟨t, hrun, hcalls.mono fun _ t' hshown => ?_⟩
  refine ⟨bytesCalls.foldl (NodeCall.runBytes 32) bytesMemory, hshown.1, by decide +kernel, by decide +kernel, ?_⟩
  have houtside : ∀ p ∈ 8 :: bytesConf.component.slots, ¬ InRange p (bytesConf.component.nodeSpan 8 p) 4176 := by
    intro p hp
    simp only [hslots, List.mem_cons, List.not_mem_nil, or_false] at hp
    rcases hp with rfl | rfl | rfl
    all_goals decide
  rw [hshown.2 4176 houtside]
  decide +kernel

end Jcl
