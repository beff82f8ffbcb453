import CosmoRuby.Lib.Page
import Mathlib.Algebra.BigOperators.Group.List.Basic
import Mathlib.Data.List.Pairwise

/-!
# The table of memory mappings

`libc/intrin/mmap.c` keeps a tree of `struct Map` ordered by address, the number of its entries and
the number of their pages. The tree is modelled by the list of its entries in order. An entry may
have a size that is no multiple of the page size; it stands for whole pages.
-/

namespace CosmoRuby.Mmap

open CosmoRuby.Lib

/-- The bits of the `flags` of `mmap`, apart: `MAP_TYPE`, the three the tracker looks at, the rest. -/
structure Flags where
  type : Nat
  anonymous : Bool
  fixed : Bool
  noreplace : Bool
  others : Nat
deriving DecidableEq, Repr

def mapShared : Nat := 1

def mapSharedValidate : Nat := 3

def mapsFungeFlags (flags : Flags) : Flags :=
  { flags with
    fixed := false
    noreplace := false
    type := if flags.type = mapSharedValidate then mapShared else flags.type }

structure Map where
  addr : Nat
  size : Nat
  off : Int
  flags : Flags
  prot : Nat
deriving DecidableEq, Repr

structure Maps where
  maps : List Map
  count : Nat
  pages : Nat
deriving DecidableEq, Repr

def pageCount (ps size : Nat) : Nat := (size + ps - 1) / ps

def Map.stop (ps : Nat) (m : Map) : Nat := m.addr + roundUp ps m.size

def Map.left (lo : Nat) (m : Map) : Map := { m with size := lo - m.addr }

/-- What is left of an entry from `hi` on; the offset of a file mapping moves along. -/
def Map.right (hi : Nat) (m : Map) : Map :=
  { m with
    addr := hi
    size := m.addr + m.size - hi
    off := if m.flags.anonymous then m.off else m.off + ((hi - m.addr : Nat) : Int) }

/-! ## The loops over a range

`__muntrack` and `__mprotect` both start at the last entry that begins at or before the range, and
stop at the first that begins after it. -/

def mapsFloor (addr : Nat) (maps : List Map) : Nat :=
  (maps.takeWhile fun m => m.addr ≤ addr).length - 1

def beforeRange (addr : Nat) (maps : List Map) : List Map := maps.take (mapsFloor addr maps)

def visited (addr hi : Nat) (maps : List Map) : List Map :=
  (maps.drop (mapsFloor addr maps)).takeWhile fun m => m.addr ≤ hi

def afterRange (addr hi : Nat) (maps : List Map) : List Map :=
  (maps.drop (mapsFloor addr maps)).dropWhile fun m => m.addr ≤ hi

theorem beforeRange_visited_afterRange (addr hi : Nat) (maps : List Map) :
    beforeRange addr maps ++ visited addr hi maps ++ afterRange addr hi maps = maps := by
  unfold beforeRange visited afterRange
  rw [List.append_assoc, List.takeWhile_append_dropWhile, List.take_append_drop]

def Map.Outside (ps lo hi : Nat) (m : Map) : Prop := min hi (m.stop ps) ≤ max lo m.addr

instance (ps lo hi : Nat) (m : Map) : Decidable (m.Outside ps lo hi) :=
  inferInstanceAs (Decidable (_ ≤ _))

def Map.Covered (ps lo hi : Nat) (m : Map) : Prop := lo ≤ m.addr ∧ m.stop ps ≤ hi

instance (ps lo hi : Nat) (m : Map) : Decidable (m.Covered ps lo hi) :=
  inferInstanceAs (Decidable (_ ∧ _))

/-! ## `__muntrack` -/

def cut (ps lo hi : Nat) (m : Map) : List Map :=
  if m.Outside ps lo hi then [m]
  else if m.Covered ps lo hi then []
  else if lo ≤ m.addr then [m.right hi]
  else if m.stop ps ≤ hi then [m.left lo]
  else [m.left lo, m.right hi]

def cutPages (ps lo hi : Nat) (m : Map) : Nat :=
  if m.Outside ps lo hi then 0
  else if m.Covered ps lo hi then pageCount ps m.size
  else if lo ≤ m.addr then pageCount ps (hi - m.addr)
  else if m.stop ps ≤ hi then pageCount ps (m.addr + m.size - lo)
  else pageCount ps (hi - lo)

structure Range where
  addr : Nat
  size : Nat
deriving DecidableEq, Repr

def shaved (ps lo hi : Nat) (m : Map) : List Range :=
  if m.Outside ps lo hi then []
  else if m.Covered ps lo hi then []
  else if lo ≤ m.addr then [⟨m.addr, hi - m.addr⟩]
  else if m.stop ps ≤ hi then [⟨lo, m.addr + m.size - lo⟩]
  else [⟨lo, hi - lo⟩]

def removed (ps lo hi : Nat) (m : Map) : Bool :=
  decide (¬ m.Outside ps lo hi) && decide (m.Covered ps lo hi)

def rangeEnd (ps addr size : Nat) : Nat := (addr + roundUp ps size) % 2 ^ 64

/-- `__maps.count` goes down for an entry that is removed and up for a hole. -/
def muntrack (ps addr size : Nat) (t : Maps) : Maps :=
  let hi := rangeEnd ps addr size
  let seen := visited addr hi t.maps
  { maps := beforeRange addr t.maps ++ seen.flatMap (cut ps addr hi) ++ afterRange addr hi t.maps
    count := t.count + (seen.map fun m => (cut ps addr hi m).length).sum - seen.length
    pages := t.pages - (seen.map (cutPages ps addr hi)).sum }

def muntrackTemp (ps addr size : Nat) (t : Maps) : List Range :=
  (visited addr (rangeEnd ps addr size) t.maps).flatMap (shaved ps addr (rangeEnd ps addr size))

def muntrackDeleted (ps addr size : Nat) (t : Maps) : List Map :=
  ((visited addr (rangeEnd ps addr size) t.maps).filter
    (removed ps addr (rangeEnd ps addr size))).reverse

/-! ## `__mprotect` -/

def reprotect (ps lo hi prot : Nat) (m : Map) : List Map :=
  if m.Outside ps lo hi then [m]
  else if m.Covered ps lo hi then [{ m with prot := prot }]
  else if lo ≤ m.addr then [{ m.left hi with prot := prot }, m.right hi]
  else if m.stop ps ≤ hi then [m.left lo, { m.right lo with prot := prot }]
  else
    [m.left lo,
      { m with
        addr := lo
        size := hi - lo
        off := if m.flags.anonymous then 0 else m.off + ((lo - m.addr : Nat) : Int)
        prot := prot },
      m.right hi]

/-- `__mprotect` with every chunk accepted by the kernel and every entry allocated. -/
def mprotect (ps addr size prot : Nat) (t : Maps) : Maps :=
  if size = 0 then t
  else
    let hi := rangeEnd ps addr size
    let seen := visited addr hi t.maps
    { maps := beforeRange addr t.maps ++ seen.flatMap (reprotect ps addr hi prot) ++
        afterRange addr hi t.maps
      count := t.count + (seen.map fun m => (reprotect ps addr hi prot m).length).sum - seen.length
      pages := t.pages }

/-! ## `__maps_insert` -/

def mapsMergeable (ps : Nat) (x y : Map) : Bool :=
  decide (x.stop ps = y.addr) && x.flags.anonymous && y.flags.anonymous &&
    decide (x.prot = y.prot) && decide (mapsFungeFlags x.flags = mapsFungeFlags y.flags)

def Map.extend (ps : Nat) (x y : Map) : Map := { x with size := roundUp ps x.size + y.size }

def Map.extendDown (ps : Nat) (m y : Map) : Map :=
  { y with addr := y.addr - roundUp ps m.size, size := y.size + roundUp ps m.size }

/-- The left neighbour, the new entry and the right neighbour, after the three attempts to merge. -/
def mergeNeighbours (ps : Nat) (left : Option Map) (m : Map) (right : Option Map) : List Map :=
  match left, right with
  | none, none => [m]
  | some x, none => if mapsMergeable ps x m then [x.extend ps m] else [x, m]
  | none, some y => if mapsMergeable ps m y then [m.extendDown ps y] else [m, y]
  | some x, some y =>
    if mapsMergeable ps x m then
      if mapsMergeable ps (x.extend ps m) y then [(x.extend ps m).extend ps y]
      else [x.extend ps m, y]
    else if mapsMergeable ps m y then
      if mapsMergeable ps x (m.extendDown ps y) then [x.extend ps (m.extendDown ps y)]
      else [x, m.extendDown ps y]
    else [x, m, y]

def mapsInsert (ps : Nat) (m : Map) (t : Maps) : Maps :=
  let before := t.maps.takeWhile fun x => x.addr ≤ m.addr
  let after := t.maps.dropWhile fun x => x.addr ≤ m.addr
  let merged := mergeNeighbours ps before.getLast? m after.head?
  { maps := before.dropLast ++ merged ++ after.tail
    count := t.count + merged.length - before.getLast?.toList.length - after.head?.toList.length
    pages := t.pages + pageCount ps m.size }

end CosmoRuby.Mmap
