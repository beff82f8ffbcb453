import Mathlib.Data.List.Basic

/-!
# Iterators of `ctl::set`

The part of `set.h` that goes through a set. A node is kept with its parents, from the nearest one up to the
root, so that a parent pointer cannot be wrong. What `leftmost` and `rightmost`, `++` and `--` do is the same
up to the side, which is `true` on the right.
-/

namespace CosmoRuby.Ctl

open List

variable {α β : Type}

/-- `rbtree`, without the colour, which no iterator reads. -/
inductive Tree (α : Type) where
  | nil
  | node (child : Bool → Tree α) (value : α)

/-- A parent, and the side of it where the node is. -/
structure Frame (α : Type) where
  side : Bool
  child : Bool → Tree α
  value : α

structure Node (α : Type) where
  child : Bool → Tree α
  value : α
  up : List (Frame α)

/-- `leftmost` and `rightmost` -/
def outermost (side : Bool) : Tree α → List (Frame α) → Option (Node α)
  | .nil, _ => none
  | .node child value, up =>
    (outermost side (child side) (⟨side, child, value⟩ :: up)).or (some ⟨child, value, up⟩)

/-- The loop over the parents. -/
def climb (side : Bool) : List (Frame α) → Option (Node α)
  | [] => none
  | f :: up => if f.side = side then climb side up else some ⟨f.child, f.value, up⟩

/-- From a node to the next one on a side: into the child there if there is one, and up otherwise. -/
def advance (side : Bool) (n : Node α) : Option (Node α) :=
  (outermost (!side) (n.child side) (⟨side, n.child, n.value⟩ :: n.up)).or (climb side n.up)

/-- `iterator::operator++`, which leaves a null pointer as it is. -/
def increment (p : Option (Node α)) : Option (Node α) := p.bind (advance true)

/-- `iterator::operator--`. Nothing is a trap. -/
def decrement (p : Option (Node α)) : Option (Option (Node α)) := p.map (advance false)

/-- `reverse_iterator::operator++`, which reads through the pointer. Nothing is a null pointer read. -/
def reverseIncrement (p : Option (Node α)) : Option (Option (Node α)) := p.map (advance false)

/-- `reverse_iterator::operator--` -/
def reverseDecrement (p : Option (Node α)) : Option (Option (Node α)) := p.map (advance true)

/-- `reverse_iterator::base` -/
def base (root : Tree α) : Option (Node α) → Option (Option (Node α))
  | none => some (outermost false root [])
  | some n => reverseIncrement (some n)

/-! ## What the traversal should be -/

/-- The nodes on and below a place, towards a side. -/
def nodes (side : Bool) : Tree α → List (Frame α) → List (Node α)
  | .nil, _ => []
  | .node child value, up =>
    nodes side (child !side) (⟨!side, child, value⟩ :: up) ++
      ⟨child, value, up⟩ :: nodes side (child side) (⟨side, child, value⟩ :: up)

/-- A set that is in the order of its `Compare`. -/
structure Set (lt : α → α → Prop) where
  root : Tree α
  ascending : (nodes true root []).Pairwise fun m n => lt m.value n.value

/-- Each node of the list leads to the next one, and the last one to `e`. -/
def Walk (f : β → Option β) (e : Option β) : List β → Prop
  | [] => True
  | a :: l => f a = l.head?.or e ∧ Walk f e l

section

variable {lt : α → α → Prop} (s : Set lt)

def Set.elements : List (Node α) := nodes true s.root []

/-- What the iterators are for. With `toEnd` the position behind the last element also has a `--`. -/
structure Traverses (toEnd : Bool) : Prop where
  begin : outermost false s.root [] = s.elements.head?
  forward : Walk (fun n => increment (some n)) none s.elements
  rbegin : outermost true s.root [] = s.elements.reverse.head?
  backward : Walk (advance false) none s.elements.reverse
  undo : ∀ n ∈ s.elements, toEnd = true ∨ increment (some n) ≠ none →
    decrement (increment (some n)) = some (some n)
  reverseUndo : ∀ n ∈ s.elements, toEnd = true ∨ reverseIncrement (some n) ≠ some none →
    (reverseIncrement (some n)).bind reverseDecrement = some (some n)
  base : ∀ n ∈ s.elements, base s.root (some n) = some (increment (some n))
  base_rbegin : Ctl.base s.root (outermost true s.root []) = some none
  base_rend : Ctl.base s.root none = some (outermost false s.root [])

end

variable {f : β → Option β} {e : Option β} {xs ys : List β}

theorem walk_append : Walk f e (xs ++ ys) ↔ Walk f (ys.head?.or e) xs ∧ Walk f e ys := by
  induction xs with
  | nil => simp [Walk]
  | cons a xs ih => simp [Walk, ih, and_assoc, Option.or_assoc]

section

variable (side : Bool) (t : Tree α) (up : List (Frame α))

theorem head?_nodes :
    (nodes side t up).head? = outermost (!side) t up := by
  induction t generalizing up with
  | nil => rfl
  | node child value ih => simp [nodes, outermost, ih]

/-- Below a node the way on leads through all nodes, and from the last one to where the parents lead. -/
theorem walk_nodes :
    Walk (advance side) (climb side up) (nodes side t up) := by
  induction t generalizing up with
  | nil => exact trivial
  | node child value ih =>
    have hbefore := ih (!side) (⟨!side, child, value⟩ :: up)
    have hbehind := ih side (⟨side, child, value⟩ :: up)
    rw [climb, if_neg (by simp)] at hbefore
    rw [climb, if_pos rfl] at hbehind
    refine walk_append.mpr ⟨hbefore, ?_, hbehind⟩
    rw [head?_nodes]
    rfl

theorem reverse_nodes :
    (nodes side t up).reverse = nodes (!side) t up := by
  induction t generalizing up with
  | nil => rfl
  | node child value ih => simp [nodes, ih]

end

variable {lt : α → α → Prop}

section

variable (s : Set lt)

theorem Set.begin_eq : outermost false s.root [] = s.elements.head? := (head?_nodes true s.root []).symm

theorem Set.reverse_elements : s.elements.reverse = nodes false s.root [] := reverse_nodes true s.root []

theorem Set.backward : Walk (advance false) none s.elements.reverse := by
  rw [s.reverse_elements]
  exact walk_nodes false s.root []

theorem Set.rbegin_eq : outermost true s.root [] = s.elements.reverse.head? := by
  rw [s.reverse_elements, head?_nodes]
  rfl

theorem traverses_of_length_le_one {toEnd : Bool} (hlen : s.elements.length ≤ 1)
    (hend : toEnd = true → s.elements = []) : Traverses s toEnd := by
  have hforward : Walk (fun n => increment (some n)) none s.elements := walk_nodes true s.root []
  have hbackward := s.backward
  -- the only element has no neighbour on either side
  have hlone : ∀ n ∈ s.elements, toEnd = false ∧ increment (some n) = none ∧ advance false n = none := by
    intro n hn
    obtain ⟨m, hm⟩ := length_eq_one_iff.mp (Nat.le_antisymm hlen (length_pos_of_mem hn))
    rw [hm] at hn hforward hbackward hend
    obtain rfl := mem_singleton.mp hn
    exact ⟨Bool.eq_false_iff.mpr fun h => cons_ne_nil _ _ (hend h), hforward.1, hbackward.1⟩
  refine ⟨s.begin_eq, hforward, s.rbegin_eq, hbackward, ?_, ?_, ?_, ?_, rfl⟩
  · intro n hn hne
    obtain ⟨hfalse, hnext, -⟩ := hlone n hn
    exact absurd hne (by simp [hfalse, hnext])
  · intro n hn hne
    obtain ⟨hfalse, -, hprev⟩ := hlone n hn
    exact absurd hne (by simp [hfalse, reverseIncrement, hprev])
  · intro n hn
    obtain ⟨-, hnext, hprev⟩ := hlone n hn
    rw [hnext, ← hprev]
    rfl
  · rw [s.rbegin_eq]
    cases hlast : s.elements.reverse.head? with
    | none =>
      rw [head?_eq_none_iff, reverse_eq_nil_iff] at hlast
      rw [base, s.begin_eq, hlast]
      rfl
    | some n =>
      obtain ⟨-, -, hprev⟩ := hlone n (mem_reverse.mp (mem_of_head? hlast))
      rw [← hprev]
      rfl

end

/-- Both directions go through every set. `--` fails behind the last element, so that all of it holds for the
empty set only; without this position it fails from two elements on, where `base` goes the wrong way. -/
theorem traverses_iff (s : Set lt) :
    (Traverses s true ↔ s.elements = []) ∧ (Traverses s false ↔ s.elements.length ≤ 1) := by
  refine ⟨⟨fun h => ?_, fun h => traverses_of_length_le_one s (by simp [h]) fun _ => h⟩,
    fun h => ?_, fun h => traverses_of_length_le_one s h (absurd · Bool.false_ne_true)⟩
  · by_contra hne
    obtain ⟨front, last, hlast⟩ := eq_nil_or_concat s.elements |>.resolve_left hne
    have hend : increment (some last) = none := by
      have hwalk := h.forward
      rw [hlast, concat_eq_append, walk_append] at hwalk
      exact hwalk.2.1
    have hundo := h.undo last (by rw [hlast]; simp) (.inl rfl)
    rw [hend] at hundo
    cases hundo
  · rw [← length_reverse]
    rcases hrev : s.elements.reverse with _ | ⟨last, _ | ⟨before, rest⟩⟩
    · exact Nat.zero_le 1
    · exact Nat.le_refl 1
    · -- `base` of the last element is the one before it
      have hprev := h.backward
      have hbase := h.base_rbegin
      rw [hrev] at hprev
      rw [h.rbegin, hrev] at hbase
      have hback : some (advance false last) = some none := hbase
      rw [hprev.1] at hback
      cases hback

/-- The elements 1 and 2. -/
def twoElements : Set (fun m n : Nat => m < n) where
  root := .node (fun side => if side then .node (fun _ => .nil) 2 else .nil) 1
  ascending := by simp [nodes]

/-- `base` of `rbegin` is 1, and `--` of `end` is a trap. -/
theorem twoElements_base : (base twoElements.root (outermost true twoElements.root [])).map
      (Option.map Node.value) = some (some 1) ∧
    decrement (increment (outermost true twoElements.root [])) = none ∧
    ∀ toEnd, ¬ Traverses twoElements toEnd := by
  refine ⟨rfl, rfl, fun toEnd h => ?_⟩
  cases h.base_rbegin

end CosmoRuby.Ctl
