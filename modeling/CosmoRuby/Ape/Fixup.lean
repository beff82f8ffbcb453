import CosmoRuby.Ape.Apelink
import CosmoRuby.Lib.Outcome
import Mathlib.Data.List.TakeDrop

/-!
# What the fixups of a PE leave alone

`FixupPeImage` writes to many places of an input. It changes nothing but the fields it wrote to, and
the input keeps its size.
-/

namespace CosmoRuby.Ape

open Lib List

variable {α β ε : Type} {m m' m'' : PeImage} {x : Except String PeImage}
  {f : PeImage → Except String PeImage} {w p v a : Nat}

def Covered (fields : List (Nat × Nat)) (a : Nat) : Prop := ∃ w ∈ fields, w.1 ≤ a ∧ a < w.1 + w.2

/-- Between two moments of the fixups, only fields that were written to have changed. -/
structure Kept (m m' : PeImage) : Prop where
  length : m'.map.length = m.map.length
  grows : m.written ⊆ m'.written
  same : ∀ a, ¬Covered m'.written a → m'.map[a]? = m.map[a]?

theorem Kept.refl (m : PeImage) : Kept m m := ⟨rfl, List.Subset.refl _, fun _ _ => rfl⟩

theorem Kept.trans (h : Kept m m') (h' : Kept m' m'') : Kept m m'' where
  length := h'.length.trans h.length
  grows := List.Subset.trans h.grows h'.grows
  same := by
    intro a ha
    rw [h'.same a ha]
    apply h.same
    rintro ⟨w, hw, hin⟩
    exact ha ⟨w, h'.grows hw, hin⟩

def Keeps (m : PeImage) (x : Except String PeImage) : Prop := ∀ m', x = .ok m' → Kept m m'

theorem Keeps.ok (m : PeImage) : Keeps m (.ok m) := by
  intro m' h
  cases h
  exact Kept.refl m

theorem Keeps.error (m : PeImage) (why : String) : Keeps m (.error why) := fun _ h => nomatch h

theorem Keeps.bind (hx : Keeps m x) (hf : ∀ m', Keeps m' (f m')) : Keeps m (x >>= f) := by
  intro m'' h
  obtain ⟨m', hm', hf'⟩ := bind_eq_ok h
  exact (hx m' hm').trans (hf m' m'' hf')

theorem keeps_write (w p v : Nat) (m : PeImage) : Keeps m (m.write w p v) := by
  unfold PeImage.write store
  split_ifs with hlen
  · exact Keeps.error m _
  · intro m' h
    cases h
    have hfield : (leBytes w v).length = w := by
      unfold leBytes
      rw [length_map, length_range]
    have htake : (m.map.take p).length = p := by
      rw [length_take]
      omega
    constructor
    · simp only [length_append, length_drop, hfield, htake]
      omega
    · exact subset_cons_self _ _
    · intro a ha
      have hout : a < p ∨ p + w ≤ a := by
        by_contra hin
        exact ha ⟨(p, w), mem_cons_self, by omega, by omega⟩
      rcases hout with hlt | hge
      · rw [append_assoc, List.getElem?_append_left (by omega), List.getElem?_take_of_lt hlt]
      · rw [List.getElem?_append_right (by rw [length_append, htake, hfield]; exact hge),
          List.getElem?_drop, length_append, htake, hfield, Nat.add_sub_cancel' hge]

theorem keeps_skew (delta w p : Nat) (why : String) (m : PeImage) :
    Keeps m (m.skew delta w p why) := by
  unfold PeImage.skew
  split_ifs
  · exact Keeps.error m why
  · exact keeps_write w p _ m

theorem keeps_unskew (delta w p : Nat) (why : String) (m : PeImage) :
    Keeps m (m.unskew delta w p why) := by
  unfold PeImage.unskew
  split_ifs
  · exact Keeps.error m why
  · exact keeps_write w p _ m

theorem keeps_skewTable (delta fuel p : Nat) (m : PeImage) : Keeps m (skewTable delta fuel p m) := by
  induction fuel generalizing p m with
  | zero => exact Keeps.ok m
  | succ fuel ih =>
    unfold skewTable
    split_ifs
    · exact Keeps.ok m
    · exact (keeps_skew _ _ _ _ m).bind fun m' => ih (p + 8) m'

theorem keeps_skewImport (delta base pe idt : Nat) (m : PeImage) :
    Keeps m (skewImport delta base pe idt m) := by
  unfold skewImport
  cases m.rva base pe (m.read 4 idt) with
  | none => exact Keeps.error m _
  | some ilt =>
    apply (keeps_skewTable delta _ ilt m).bind
    intro m
    cases m.rva base pe (m.read 4 (idt + 16)) with
    | none => exact Keeps.error m _
    | some iat =>
      apply (keeps_skewTable delta _ iat m).bind
      intro m
      apply (keeps_skew _ _ _ _ m).bind
      intro m
      apply (keeps_skew _ _ _ _ m).bind
      intro m
      exact keeps_skew _ _ _ _ m

theorem keeps_skewImports (delta base pe fuel idt : Nat) (m : PeImage) :
    Keeps m (skewImports delta base pe fuel idt m) := by
  induction fuel generalizing idt m with
  | zero => exact Keeps.ok m
  | succ fuel ih =>
    unfold skewImports
    split_ifs
    · exact Keeps.ok m
    · exact (keeps_skewImport delta base pe idt m).bind fun m' => ih (idt + 20) m'

theorem keeps_skewImportDirectory (delta base pe : Nat) (m : PeImage) :
    Keeps m (skewImportDirectory delta base pe m) := by
  unfold skewImportDirectory
  dsimp only
  split_ifs
  · cases m.rva base pe (m.read 4 (peOptional pe + 112 + 8)) with
    | none => exact Keeps.error m _
    | some idt => exact (keeps_skewImports delta base pe _ idt m).bind fun m => keeps_skew _ _ _ _ m
  · exact Keeps.ok m

theorem keeps_skewSections (rva off n s : Nat) (m : PeImage) :
    Keeps m (skewSections rva off n s m) := by
  induction n generalizing s m with
  | zero => exact Keeps.ok m
  | succ n ih =>
    unfold skewSections
    apply (keeps_skew _ _ _ _ m).bind
    intro m
    exact (keeps_skew _ _ _ _ m).bind fun m' => ih (s + 40) m'

theorem keeps_fixupPeImage (asserts : Bool) (base pe rva off : Nat) (m : PeImage) :
    Keeps m (fixupPeImage asserts base pe rva off m) := by
  unfold fixupPeImage
  split_ifs
  · exact Keeps.error m _
  · change Keeps m (m.unskew rva 8 (peOptional pe + 24) _ >>= _)
    apply (keeps_unskew _ _ _ _ m).bind
    intro m
    apply (keeps_skew _ _ _ _ m).bind
    intro m
    apply (keeps_skew _ _ _ _ m).bind
    intro m
    apply (keeps_skew _ _ _ _ m).bind
    intro m
    exact (keeps_skewImportDirectory rva base pe m).bind fun m => keeps_skewSections rva off _ _ m

theorem keeps_linkPe (o : Options) (i : Input) (offset : Nat) :
    Keeps ⟨i.map, []⟩ (linkPe o i offset) := by
  unfold linkPe
  cases i.pe with
  | none => exact Keeps.ok _
  | some pe =>
    dsimp only
    split_ifs
    · exact keeps_fixupPeImage _ _ _ _ _ _
    · exact Keeps.ok _

end CosmoRuby.Ape
