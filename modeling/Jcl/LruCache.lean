/-
Module: Jcl.LruCache
Layer: Model
Purpose: `lru_cache.c`: a cache in a memory block, most recently used entry first. The functions of the
  user are functions of the contents of the slot they are given, their context and the rest of the world;
  the calls of `hit`, `miss` and `evict` are recorded.
Imports: Jcl.MemoryBlock
Trusted boundary: human-reviewed spec
Main exports: SlotFn, LruFn, Lru, LruCall, LruState, jfsLruMakeDesc, jfsLruInit, jfsLruFree, jfsLruAccess
-/
import Jcl.MemoryBlock

namespace Jcl

/-- `jfs_lru_slot_fn`: what a call with the context `C` does to the slot and to the world `W`. It writes
    nothing outside the slot. -/
structure SlotFn (C W : Type) where
  run : List UInt8 → C → W → List UInt8 × W
  length_run : ∀ slot ctx w, (run slot ctx w).1.length = slot.length

/-- `jfs_lru_fn_t`; each pointer may be `NULL`. -/
structure LruFn (K C W : Type) where
  cmp : Option (K → List UInt8 → Int)
  hit : Option (SlotFn C W)
  miss : Option (SlotFn C W)
  evict : Option (SlotFn C W)

/-- `jfs_lru_conf_t`. -/
structure LruConf (K C W : Type) where
  component : MlgComponent
  fn : LruFn K C W
  evictCtx : C

/-- `jfs_lru_t`. -/
structure Lru (K C W : Type) where
  mb : Mb
  count : UInt64
  fn : LruFn K C W
  evictCtx : C

/-- A call of a user function: the contents of the slot before it, and the context. -/
inductive LruCall (S C : Type) where
  | hit (slot : S) (ctx : C)
  | miss (slot : S) (ctx : C)
  | evict (slot : S) (ctx : C)
deriving DecidableEq, Repr

/-- The cache record, the memory, what the user functions work on, and their calls, oldest first. -/
structure LruState (K C W : Type) where
  lru : Lru K C W
  mem : Memory
  world : W
  calls : List (LruCall (List UInt8) C)

/-- A call on a cache: it may stop with a fault. -/
abbrev LruM (K C W : Type) := StateT (LruState K C W) (Except Fault)

section

variable {K C W : Type}

/-- `jfs_lru_make_desc`. -/
def jfsLruMakeDesc (objSize objAlign objCount : UInt64) (err : JclErr) : MlgDesc × JclErr :=
  let desc : MlgDesc := { align := objAlign, size := objSize, count := objCount + 1 }
  if !jfsMlgValidDesc desc then ({ size := 0, align := 0, count := 0 }, .arg)
  else (desc, err)

/-- `lru_valid_fn`. -/
def lruValidFn (fn : LruFn K C W) : Bool :=
  fn.cmp.isSome && fn.evict.isSome && fn.hit.isSome && fn.miss.isSome

/-- `jfs_lru_init`: the record and the final `*err`. -/
def jfsLruInit (lruInit : Lru K C W) (conf : LruConf K C W) (err : JclErr) : Lru K C W × JclErr :=
  if !lruValidFn conf.fn then (lruInit, .badConf)
  else
    let (mb, err) := jfsMbInit lruInit.mb conf.component err
    let lruInit := { lruInit with mb := mb }
    if err ≠ .ok then (lruInit, err)
    else ({ lruInit with count := 0, fn := conf.fn, evictCtx := conf.evictCtx }, err)

/-- `lru->fn.cmp(key, slot)`. -/
def callCmpFn (key : K) (slot : Addr) : LruM K C W Int := do
  let s ← get
  match s.lru.fn.cmp with
  | none => throw .nullDeref
  | some cmp =>
      let (contents, mem) := s.mem.load slot s.lru.mb.objSize.toNat
      set { s with mem := mem }
      return cmp key contents

/-- `fn(slot, ctx)`, recorded as `call`. -/
def callSlotFn (fn : Option (SlotFn C W)) (call : List UInt8 → C → LruCall (List UInt8) C) (slot : Addr)
    (ctx : C) : LruM K C W Unit := do
  let s ← get
  match fn with
  | none => throw .nullDeref
  | some fn =>
      let (contents, mem) := s.mem.load slot s.lru.mb.objSize.toNat
      let (contents', world) := fn.run contents ctx s.world
      set { s with
        mem := mem.store slot contents'
        world := world
        calls := s.calls ++ [call contents ctx] }

/-- `lru_promote`. -/
def lruPromote (index : UInt64) : LruM K C W Unit := do
  let s ← get
  let mb := s.lru.mb
  let (tempSlot, mem) := jfsMbRead s.mem mb index
  let mem := jfsMbRemap mem mb 1 0 index
  set { s with mem := jfsMbWrite mem mb tempSlot 0 }

/-- The loop of `jfs_lru_access` from `i` on, with so many entries left; true if it found the key. -/
def lruAccessLoop (key : K) (userCtx : C) : Nat → UInt64 → LruM K C W Bool
  | 0, _ => return false
  | n + 1, i => do
      let lru := (← get).lru
      let slotPtr := jfsMbIndex lru.mb i
      if (← callCmpFn key slotPtr) = 0 then
        callSlotFn lru.fn.hit .hit slotPtr userCtx
        if i ≠ 0 then lruPromote i
        return true
      lruAccessLoop key userCtx n (i + 1)

/-- The loop of `jfs_lru_free` from `i` on, with so many entries left. -/
def lruFreeLoop : Nat → UInt64 → LruM K C W Unit
  | 0, _ => return
  | n + 1, i => do
      let lru := (← get).lru
      callSlotFn lru.fn.evict .evict (jfsMbIndex lru.mb i) lru.evictCtx
      lruFreeLoop n (i + 1)

/-- `jfs_lru_free`. -/
def jfsLruFree : LruM K C W Unit := do
  lruFreeLoop (← get).lru.count.toNat 0

variable [Build]

/-- The part of `jfs_lru_access` that looks for a slot: the next fresh one, or the last one after its entry
    was evicted. -/
def lruTakeSlot : LruM K C W Addr := do
  let lru := (← get).lru
  if lru.count < lru.mb.capacity then
    modify fun s => { s with lru := { s.lru with count := s.lru.count + 1 } }
    return jfsMbIndex lru.mb lru.count
  else
    assert (lru.count = lru.mb.capacity)
    let slot := jfsMbIndex lru.mb (lru.count - 1)
    callSlotFn lru.fn.evict .evict slot lru.evictCtx
    return slot

/-- `jfs_lru_access`. -/
def jfsLruAccess (key : K) (userCtx : C) : LruM K C W Unit := do
  if ← lruAccessLoop key userCtx (← get).lru.count.toNat 0 then return
  let slot ← lruTakeSlot
  let lru := (← get).lru
  callSlotFn lru.fn.miss .miss slot userCtx
  lruPromote (lru.count - 1)

end

end Jcl
