/-
Module: Jcl.Lib.Cells
Layer: Library
Purpose: Cells of byte memory: ranges of fixed length that do not overlap. A write to a cell changes what is in that
  cell and nothing else, so that memory is a function of the cells that is updated one by one.
Imports: Jcl.Lib.ByteMemory
Trusted boundary: none (fully proved)
Main exports: Cells, Cells.contents, Cells.store, Cells.contents_store, Cells.store_outside
-/
import Jcl.Lib.ByteMemory
import Mathlib.Logic.Function.Basic

/-- Ranges in the address space that do not overlap. -/
structure Cells (ι : Type) where
  addr : ι → UInt64
  len : ι → Nat
  fits : ∀ i, (addr i).toNat + len i ≤ 2 ^ 64
  apart : ∀ i j, i ≠ j → (addr i).toNat + len i ≤ (addr j).toNat ∨ (addr j).toNat + len j ≤ (addr i).toNat

namespace Cells

open ByteMemory (InRange)

variable {ι : Type} (cells : Cells ι) {m : ByteMemory} {i : ι} {bs : List UInt8}

/-- What is in a cell. -/
def contents (m : ByteMemory) (i : ι) : List UInt8 := m.read (cells.addr i) (cells.len i)

/-- Memory after a write to a cell. -/
def store (m : ByteMemory) (i : ι) (bs : List UInt8) : ByteMemory := m.write (cells.addr i) bs

variable [DecidableEq ι]

/-- A write changes one cell. -/
theorem contents_store (hlen : bs.length = cells.len i) :
    cells.contents (cells.store m i bs) = Function.update (cells.contents m) i bs := by
  have hfits : (cells.addr i).toNat + bs.length ≤ 2 ^ 64 := hlen ▸ cells.fits i
  funext j
  change (m.write (cells.addr i) bs).read (cells.addr j) (cells.len j) = _
  by_cases hj : j = i
  · subst hj
    rw [Function.update_self, ← hlen]
    exact ByteMemory.read_write_same m _ (by omega)
  · rw [Function.update_of_ne hj]
    refine ByteMemory.read_write_apart m hfits (cells.fits j) ?_
    rw [hlen]
    exact cells.apart j i hj

omit [DecidableEq ι] in
/-- Nothing outside the cell changes. -/
theorem store_outside (hlen : bs.length = cells.len i) {x : UInt64} (hx : ¬ InRange (cells.addr i) (cells.len i) x) :
    cells.store m i bs x = m x := ByteMemory.write_outside m (hlen ▸ hx)

end Cells
