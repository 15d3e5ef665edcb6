/-
Module: Jcl.BinarySearchTree
Layer: Model
Purpose: `binary_search_tree.c`: a red-black tree with a sentinel, parent pointers that carry the colour
  in their low bit, chains of equal values, three cached nodes and a free list of node slots. The
  functions act on a state that holds the tree record and the memory of the nodes; each is written
  statement by statement after its C counterpart. Functions that come in a left and a right version have
  one body with the side as a parameter. Loops carry a bound of 2^64 rounds: there are no more addresses
  than that, so a descent that exceeds it never ends.
Imports: Jcl.FreeList, Jcl.Lib.RedBlack.Tree
Trusted boundary: human-reviewed spec; `tree->attach` and `tree->detach`, which the record does not
  declare, are taken to be `bst_attach_node` and `bst_detach_node` on the nodes of the given values
Main exports: NodeMemory, Bst, BstM, jfsBstMakeDesc, jfsBstInit, jfsBstPuts, jfsBstTakes,
  jfsBstGetLargest, jfsBstGetSmallest, bstFind, bstInsert, bstDelete
-/
import Jcl.FreeList
import Jcl.Lib.RedBlack.Tree
import Mathlib.Logic.Function.Basic

namespace Jcl

open RedBlack (Dir)

/-- The memory of a tree's nodes and values, field by field. A field is indexed by the address of the
    node; `value` by the address of the value. -/
structure NodeMemory (V : Type) where
  parentColor : Addr → UInt64
  right : Addr → Addr
  left : Addr → Addr
  list : Addr → Addr
  value : Addr → V

/-- `jfs_fl_obj_t.next` and `jfs_bst_node_t.parent_color` are the same word of a slot. -/
instance {V : Type} : LinkMemory (NodeMemory V) where
  next m p := m.parentColor p
  setNext m p v := { m with parentColor := Function.update m.parentColor p v }

/-- `jfs_bst_cache_t`. -/
structure BstCache where
  smallest : Addr
  largest : Addr
  previous : Addr
deriving DecidableEq, Repr

/-- `jfs_bst_t` and the memory it points to. `nil` is the address of `nil_storage`. -/
structure Bst (K V : Type) where
  mem : NodeMemory V
  root : Addr
  nil : Addr
  cache : BstCache
  cmp : Option (K → V → Int)
  valueOffset : UInt64
  valueSize : UInt64
  freeList : Fl

/-- `jfs_bst_conf_t`. -/
structure BstConf (K V : Type) where
  component : MlgComponent
  cmp : Option (K → V → Int)

/-- `bst_location_t`. -/
structure BstLocation where
  node : Addr
  parent : Addr
  parentCmp : Int
deriving DecidableEq, Repr

/-- A call on a tree: it may stop with a fault. -/
abbrev BstM (K V : Type) := StateT (Bst K V) (Except Fault)

/-- `BST_RED`. -/
abbrev bstRed : UInt64 := 0

/-- `BST_BLACK`. -/
abbrev bstBlack : UInt64 := 1

/-- The number of addresses; no terminating loop of this file makes more rounds. -/
def loopBound : Nat := 2 ^ 64

section

variable {K V : Type}

/-! ### Node fields -/

/-- Accessing a field through `p` requires `p` not to be `NULL`. -/
def deref (p : Addr) : BstM K V Unit :=
  if p = null then throw .nullDeref else pure ()

def readLeft (p : Addr) : BstM K V Addr := do
  deref p
  return (← get).mem.left p

def readRight (p : Addr) : BstM K V Addr := do
  deref p
  return (← get).mem.right p

def readList (p : Addr) : BstM K V Addr := do
  deref p
  return (← get).mem.list p

def writeLeft (p v : Addr) : BstM K V Unit := do
  deref p
  modify fun t => { t with mem := { t.mem with left := Function.update t.mem.left p v } }

def writeRight (p v : Addr) : BstM K V Unit := do
  deref p
  modify fun t => { t with mem := { t.mem with right := Function.update t.mem.right p v } }

def writeList (p v : Addr) : BstM K V Unit := do
  deref p
  modify fun t => { t with mem := { t.mem with list := Function.update t.mem.list p v } }

/-- The child of `p` on side `d`. -/
def readChild (d : Dir) (p : Addr) : BstM K V Addr :=
  match d with
  | .left => readLeft p
  | .right => readRight p

def writeChild (d : Dir) (p v : Addr) : BstM K V Unit :=
  match d with
  | .left => writeLeft p v
  | .right => writeRight p v

def writeRoot (p : Addr) : BstM K V Unit := modify fun t => { t with root := p }

variable [Build]

/-- `bst_parent`. -/
def bstParent (node : Addr) : BstM K V Addr := do
  assert (node ≠ null)
  deref node
  return (← get).mem.parentColor node &&& ~~~1

/-- `bst_set_parent`. -/
def bstSetParent (node parent : Addr) : BstM K V Unit := do
  assert (node ≠ null)
  assert (parent ≠ null)
  deref node
  modify fun t => { t with mem := { t.mem with
    parentColor := Function.update t.mem.parentColor node
      (parent ||| (t.mem.parentColor node &&& 1)) } }

/-- `bst_color`. -/
def bstColor (node : Addr) : BstM K V UInt64 := do
  assert (node ≠ null)
  deref node
  return (← get).mem.parentColor node &&& 1

/-- `bst_set_color`. -/
def bstSetColor (node : Addr) (color : UInt64) : BstM K V Unit := do
  assert (node ≠ null)
  assert (color = bstRed ∨ color = bstBlack)
  deref node
  modify fun t => { t with mem := { t.mem with
    parentColor := Function.update t.mem.parentColor node
      ((t.mem.parentColor node &&& ~~~1) ||| color) } }

/-- `bst_set_parent_color`. -/
def bstSetParentColor (node parent : Addr) (color : UInt64) : BstM K V Unit := do
  assert (node ≠ null)
  assert (parent ≠ null)
  assert (color = bstRed ∨ color = bstBlack)
  deref node
  modify fun t => { t with mem := { t.mem with
    parentColor := Function.update t.mem.parentColor node (parent ||| color) } }

/-! ### Values -/

/-- `bst_container_value`. -/
def bstContainerValue (node : Addr) : BstM K V Addr := do
  jfsMlgApplyOffset node (← get).valueOffset

/-- `bst_container_node`. -/
def bstContainerNode (value : Addr) : BstM K V Addr := do
  return value - (← get).valueOffset

/-- `bst_pack_node`. -/
def bstPackNode (node : Addr) (value : V) : BstM K V Addr := do
  let valuePtr ← bstContainerValue node
  modify fun t => { t with mem := { t.mem with
    value := Function.update t.mem.value valuePtr value } }
  return valuePtr

/-- `bst_unpack_node`: what it copies to `value_out`. -/
def bstUnpackNode (node : Addr) : BstM K V V := do
  let valuePtr ← bstContainerValue node
  return (← get).mem.value valuePtr

/-- `tree->cmp(key, value)`. -/
def callCmp (key : K) (value : V) : BstM K V Int := do
  match (← get).cmp with
  | none => throw .nullDeref
  | some cmp => return cmp key value

/-! ### Chains of equal values -/

/-- `bst_attach_node`. -/
def bstAttachNode (baseNode attachNode : Addr) : BstM K V Unit := do
  writeList attachNode (← readList baseNode)
  writeList baseNode attachNode

/-- `bst_detach_node`. -/
def bstDetachNode (baseNode : Addr) : BstM K V Addr := do
  if (← readList baseNode) = null then
    return baseNode
  else
    let ret ← readList baseNode
    writeList baseNode (← readList (← readList baseNode))
    return ret

/-- `tree->attach` on two values. -/
def treeAttach (baseValue attachValue : Addr) : BstM K V Unit := do
  bstAttachNode (← bstContainerNode baseValue) (← bstContainerNode attachValue)

/-- `tree->detach` on a value. -/
def treeDetach (value : Addr) : BstM K V Addr := do
  bstContainerValue (← bstDetachNode (← bstContainerNode value))

/-! ### Rotations and transplant -/

/-- The part of the rotations and of `bst_transplant` that stores `new` where `old` hangs below
    `oldParent`. -/
def bstReplaceChild (oldParent old new : Addr) : BstM K V Unit := do
  if oldParent = (← get).nil then
    writeRoot new
  else if old = (← readLeft oldParent) then
    writeLeft oldParent new
  else
    writeRight oldParent new

/-- `bst_rotate_left` for `.left` and `bst_rotate_right` for `.right`. -/
def bstRotate (d : Dir) (x : Addr) : BstM K V Unit := do
  let nil := (← get).nil
  assert (x ≠ nil)
  assert ((← readChild d.other x) ≠ nil)
  let y ← readChild d.other x
  let xParent ← bstParent x
  writeChild d.other x (← readChild d y)
  if (← readChild d y) ≠ nil then
    bstSetParent (← readChild d y) x
  bstSetParent y xParent
  bstReplaceChild xParent x y
  writeChild d y x
  bstSetParent x y

/-- `bst_rotate_left`. -/
def bstRotateLeft (x : Addr) : BstM K V Unit := bstRotate .left x

/-- `bst_rotate_right`. -/
def bstRotateRight (x : Addr) : BstM K V Unit := bstRotate .right x

/-- `bst_transplant`. -/
def bstTransplant (old new : Addr) : BstM K V Unit := do
  assert ((← get).root ≠ (← get).nil)
  assert (old ≠ new)
  let oldParent ← bstParent old
  bstReplaceChild oldParent old new
  bstSetParent new oldParent

/-- The loop of `bst_local_minimum` (`.left`) and `bst_local_maximum` (`.right`). -/
def bstLocalExtremumLoop (d : Dir) : Nat → Addr → BstM K V Addr
  | 0, start => do
      if (← readChild d start) = (← get).nil then return start
      throw .diverges
  | n + 1, start => do
      let next ← readChild d start
      if next = (← get).nil then return start
      bstLocalExtremumLoop d n next

/-- `bst_local_minimum`. -/
def bstLocalMinimum (start : Addr) : BstM K V Addr := bstLocalExtremumLoop .left loopBound start

/-- `bst_local_maximum`. -/
def bstLocalMaximum (start : Addr) : BstM K V Addr := bstLocalExtremumLoop .right loopBound start

/-! ### Fix-up after an insertion -/

/-- The rotating branch of the loop of `bst_fixup_insert`, on the side `d` of the grandparent on which
    the parent is. -/
def bstFixupInsertRotate (d : Dir) (node parent grandparent : Addr) : BstM K V Unit := do
  let parent ←
    if node = (← readChild d.other parent) then do
      let node := parent
      bstRotate d parent
      bstParent node
    else pure parent
  bstSetColor parent bstBlack
  bstSetColor grandparent bstRed
  bstRotate d.other grandparent

/-- The loop of `bst_fixup_insert`. -/
def bstFixupInsertLoop : Nat → Addr → BstM K V Unit
  | 0, node => do
      if (← bstColor (← bstParent node)) = bstRed then throw .diverges
  | n + 1, node => do
      if (← bstColor (← bstParent node)) = bstRed then
        let parent ← bstParent node
        let grandparent ← bstParent parent
        assert (grandparent ≠ (← get).nil)
        let d := if parent = (← readLeft grandparent) then Dir.left else Dir.right
        let uncle ← readChild d.other grandparent
        if (← bstColor uncle) = bstRed then
          bstSetColor parent bstBlack
          bstSetColor uncle bstBlack
          bstSetColor grandparent bstRed
          bstFixupInsertLoop n grandparent
        else
          bstFixupInsertRotate d node parent grandparent

/-- `bst_fixup_insert`. -/
def bstFixupInsert (node : Addr) : BstM K V Unit := do
  let nil := (← get).nil
  assert (node ≠ nil)
  assert ((← get).root ≠ nil)
  assert ((← bstColor node) = bstRed)
  bstFixupInsertLoop loopBound node
  bstSetColor (← get).root bstBlack

/-! ### Fix-up after a deletion -/

/-- The first step of the loop body of `bst_fixup_delete`: a red sibling is rotated away. -/
def bstFixupDeleteRedSibling (d : Dir) (parent sibling : Addr) : BstM K V Addr := do
  if (← bstColor sibling) = bstRed then
    bstSetColor sibling bstBlack
    bstSetColor parent bstRed
    bstRotate d parent
    readChild d.other parent
  else
    return sibling

/-- `bst_color(node->left) == BST_BLACK && bst_color(node->right) == BST_BLACK`. -/
def bstBlackChildren (node : Addr) : BstM K V Bool := do
  if (← bstColor (← readLeft node)) ≠ bstBlack then return false
  return (← bstColor (← readRight node)) = bstBlack

/-- The last branch of the loop body of `bst_fixup_delete`: the sibling has a red child. -/
def bstFixupDeleteRotate (d : Dir) (parent sibling : Addr) : BstM K V Unit := do
  let sibling ←
    if (← bstColor (← readChild d.other sibling)) = bstBlack then do
      bstSetColor (← readChild d sibling) bstBlack
      bstSetColor sibling bstRed
      bstRotate d.other sibling
      readChild d.other parent
    else pure sibling
  bstSetColor sibling (← bstColor parent)
  bstSetColor parent bstBlack
  bstSetColor (← readChild d.other sibling) bstBlack
  bstRotate d parent

/-- The loop of `bst_fixup_delete`; the result is `node` at its end. -/
def bstFixupDeleteLoop : Nat → Addr → BstM K V Addr
  | 0, node => do
      if node = (← get).root then return node
      if (← bstColor node) = bstBlack then throw .diverges
      return node
  | n + 1, node => do
      if node = (← get).root then return node
      if (← bstColor node) = bstBlack then
        let parent ← bstParent node
        let d := if node = (← readLeft parent) then Dir.left else Dir.right
        let sibling ← bstFixupDeleteRedSibling d parent (← readChild d.other parent)
        if (← bstBlackChildren sibling) then
          bstSetColor sibling bstRed
          bstFixupDeleteLoop n parent
        else
          bstFixupDeleteRotate d parent sibling
          bstFixupDeleteLoop n (← get).root
      else
        return node

/-- `bst_fixup_delete`. -/
def bstFixupDelete (node : Addr) : BstM K V Unit := do
  let node ← bstFixupDeleteLoop loopBound node
  bstSetColor node bstBlack

/-! ### Search, insertion and deletion -/

/-- `bst_check_cache`. -/
def bstCheckCache (key : K) : BstM K V Addr := do
  let t ← get
  if t.cache.previous ≠ t.nil then
    let previousValue ← bstContainerValue t.cache.previous
    if (← callCmp key (t.mem.value previousValue)) = 0 then return t.cache.previous
  if t.cache.largest ≠ t.nil then
    let largestValue ← bstContainerValue t.cache.largest
    if (← callCmp key (t.mem.value largestValue)) = 0 then return t.cache.largest
  if t.cache.smallest ≠ t.nil then
    let smallestValue ← bstContainerValue t.cache.smallest
    if (← callCmp key (t.mem.value smallestValue)) = 0 then return t.cache.smallest
  return t.nil

/-- The loop of `bst_find`, for at most the given number of rounds. -/
def bstFindLoop (key : K) : Nat → BstLocation → BstM K V BstLocation
  | 0, location => do
      if location.node = (← get).nil then return location
      throw .diverges
  | n + 1, location => do
      if location.node = (← get).nil then return location
      let nodeValue ← bstContainerValue location.node
      let cmpResult ← callCmp key ((← get).mem.value nodeValue)
      if cmpResult = 0 then return location
      let next ← if cmpResult < 0 then readLeft location.node else readRight location.node
      bstFindLoop key n { node := next, parent := location.node, parentCmp := cmpResult }

/-- Where the loop of `bst_find` starts. -/
def bstFindStart (t : Bst K V) : BstLocation := { node := t.root, parent := t.nil, parentCmp := 0 }

/-- `bst_find`. -/
def bstFind (key : K) : BstM K V BstLocation := do
  bstFindLoop key loopBound (bstFindStart (← get))

/-- `bst_insert`. -/
def bstInsert (node : Addr) (location : BstLocation) : BstM K V Unit := do
  let nil := (← get).nil
  assert (location.node = nil)
  writeLeft node nil
  writeRight node nil
  bstSetParentColor node location.parent bstRed
  if location.parent = nil then
    assert ((← get).root = nil)
    writeRoot node
  else
    assert (location.parentCmp ≠ 0)
    if location.parentCmp = -1 then
      writeLeft location.parent node
    else
      writeRight location.parent node
  bstFixupInsert node

/-- The branch of `bst_delete` for a node with two children: splices the next largest node in place of
    `node`. The result is the replacement and the colour that was deleted. -/
def bstDeleteSplice (node : Addr) : BstM K V (Addr × UInt64) := do
  let nextLargest ← bstLocalMinimum (← readRight node)
  let deletedColor ← bstColor nextLargest
  let replacement ← readRight nextLargest
  if nextLargest ≠ (← readRight node) then
    bstTransplant nextLargest (← readRight nextLargest)
    writeRight nextLargest (← readRight node)
    bstSetParent (← readRight nextLargest) nextLargest
  else
    bstSetParent replacement nextLargest
  bstTransplant node nextLargest
  writeLeft nextLargest (← readLeft node)
  bstSetParent (← readLeft nextLargest) nextLargest
  bstSetColor nextLargest (← bstColor node)
  return (replacement, deletedColor)

/-- `bst_delete`. -/
def bstDelete (node : Addr) : BstM K V Unit := do
  let nil := (← get).nil
  assert (node ≠ nil)
  let color ← bstColor node
  let (replacement, deletedColor) ←
    if (← readLeft node) = nil then do
      let replacement ← readRight node
      bstTransplant node replacement
      pure (replacement, color)
    else if (← readRight node) = nil then do
      let replacement ← readLeft node
      bstTransplant node replacement
      pure (replacement, color)
    else bstDeleteSplice node
  if deletedColor = bstBlack then
    bstFixupDelete replacement

/-- `bst_update_cache_insert`. -/
def bstUpdateCacheInsert (location : BstLocation) : BstM K V Unit := do
  let t ← get
  if location.parentCmp = -1 ∧ location.parent = t.cache.smallest then
    let smallest ← readLeft location.parent
    modify fun t => { t with cache := { t.cache with smallest := smallest } }
  else if location.parentCmp = 1 ∧ location.parent = t.cache.largest then
    let largest ← readRight location.parent
    modify fun t => { t with cache := { t.cache with largest := largest } }
  else if t.cache.largest = t.nil then
    modify fun t => { t with cache := { t.cache with largest := t.root, smallest := t.root } }

/-- `bst_update_cache_delete`. -/
def bstUpdateCacheDelete (node : Addr) : BstM K V Unit := do
  let t ← get
  if t.cache.smallest = t.cache.largest then
    assert (node = t.root)
    modify fun t => { t with cache := { t.cache with smallest := t.nil, largest := t.nil } }
  else if node = t.cache.smallest then
    assert ((← readLeft t.cache.smallest) = t.nil)
    let smallest ←
      if (← readRight t.cache.smallest) ≠ t.nil then
        bstLocalMinimum (← readRight t.cache.smallest)
      else
        bstParent t.cache.smallest
    modify fun t => { t with cache := { t.cache with smallest := smallest } }
  else if node = t.cache.largest then
    assert ((← readRight t.cache.largest) = t.nil)
    let largest ←
      if (← readLeft t.cache.largest) ≠ t.nil then
        bstLocalMaximum (← readLeft t.cache.largest)
      else
        bstParent t.cache.largest
    modify fun t => { t with cache := { t.cache with largest := largest } }

/-- `jfs_fl_alloc(&tree->free_list)`. -/
def bstFlAlloc : BstM K V Addr := do
  let t ← get
  let (node, freeList) ← jfsFlAlloc t.mem t.freeList
  set { t with freeList := freeList }
  return node

/-- `jfs_fl_free(&tree->free_list, node)`. -/
def bstFlFree (node : Addr) : BstM K V Unit := do
  modify fun t =>
    let (mem, freeList) := jfsFlFree t.mem t.freeList node
    { t with mem := mem, freeList := freeList }

/-- `bst_detach_and_delete`: what it copies to `value_out`. -/
def bstDetachAndDelete (node : Addr) : BstM K V V := do
  assert ((← get).root ≠ (← get).nil)
  let nodeValue ← bstContainerValue node
  let detachValue ← treeDetach nodeValue
  let valueOut := (← get).mem.value detachValue
  if detachValue = nodeValue then
    bstDelete node
    bstUpdateCacheDelete node
    bstFlFree node
  else
    let detachNode ← bstContainerNode detachValue
    bstFlFree detachNode
  return valueOut

/-! ### The public functions

Each returns the final `*err`; the three that take a value out also return what they stored through
`value_out`, if anything. -/

/-- `jfs_bst_make_desc`. -/
def jfsBstMakeDesc (objSize objAlign objCount : UInt64) (err : JclErr) :
    Except Fault (MlgDesc × JclErr) := do
  let nodeDesc : MlgDesc := { align := 8, size := 32, count := 1 }
  assert (jfsMlgValidDesc nodeDesc)
  let objDesc : MlgDesc := { align := objAlign, size := objSize, count := objCount }
  if !jfsMlgValidDesc objDesc then
    return ({ size := 0, align := 0, count := 0 }, .arg)
  let (nodeDesc, _) ← jfsMlgAppend nodeDesc objDesc
  return (nodeDesc, err)

/-- `jfs_bst_init` on a tree record whose `nil_storage` is at `nilStorage`. -/
def jfsBstInit (nilStorage : Addr) (conf : BstConf K V) (err : JclErr) : BstM K V JclErr := do
  let (mem, freeList, err) := jfsFlInit (← get).mem conf.component err
  modify fun t => { t with mem := mem, freeList := freeList.getD t.freeList }
  if err ≠ .ok then return err
  modify fun t => { t with nil := nilStorage }
  writeLeft nilStorage nilStorage
  writeRight nilStorage nilStorage
  bstSetParentColor nilStorage nilStorage bstBlack
  modify fun t => { t with
    cache := { smallest := nilStorage, largest := nilStorage, previous := nilStorage }
    root := nilStorage }
  let valueOffset ← jfsMlgAlignSize 32 conf.component.desc.align
  modify fun t => { t with
    valueOffset := valueOffset
    valueSize := conf.component.desc.size - valueOffset
    cmp := conf.cmp }
  if conf.cmp.isNone then return .badConf
  return err

/-- `jfs_bst_puts`. -/
def jfsBstPuts (value : V) (key : K) (err : JclErr) : BstM K V JclErr := do
  if (← get).freeList.count = 0 then return .full
  let node ← bstFlAlloc
  let packedValue ← bstPackNode node value
  let cachedNode ← bstCheckCache key
  if cachedNode ≠ (← get).nil then
    treeAttach (← bstContainerValue cachedNode) packedValue
    modify fun t => { t with cache := { t.cache with previous := cachedNode } }
    return err
  let location ← bstFind key
  if location.node ≠ (← get).nil then
    treeAttach (← bstContainerValue location.node) packedValue
  else
    bstInsert node location
    bstUpdateCacheInsert location
  modify fun t => { t with cache := { t.cache with previous := node } }
  return err

/-- `jfs_bst_takes`. -/
def jfsBstTakes (key : K) (err : JclErr) : BstM K V (JclErr × Option V) := do
  if (← get).root = (← get).nil then return (.empty, none)
  let cachedNode ← bstCheckCache key
  if cachedNode ≠ (← get).nil then
    return (err, some (← bstUnpackNode cachedNode))
  let location ← bstFind key
  if location.node = (← get).nil then return (.bstBadKey, none)
  return (err, some (← bstDetachAndDelete location.node))

/-- `jfs_bst_get_largest`. -/
def jfsBstGetLargest (err : JclErr) : BstM K V (JclErr × Option V) := do
  if (← get).cache.largest = (← get).nil then return (.empty, none)
  return (err, some (← bstDetachAndDelete (← get).cache.largest))

/-- `jfs_bst_get_smallest`. -/
def jfsBstGetSmallest (err : JclErr) : BstM K V (JclErr × Option V) := do
  if (← get).cache.smallest = (← get).nil then return (.empty, none)
  return (err, some (← bstDetachAndDelete (← get).cache.smallest))

end

end Jcl
