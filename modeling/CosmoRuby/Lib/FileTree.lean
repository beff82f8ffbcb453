import Mathlib

/-!
# File trees

Trees of named entries with regular files, directories, and what is neither. A directory has a mark,
which an extended attribute may be. What is at a path is said by `look`; two trees are the same if
they look the same at every path, in whatever order their directories list the entries.
-/

namespace CosmoRuby.Lib

open List

inductive FileTree (ν α : Type) where
  | file (content : α)
  | special
  | dir (mark : Bool) (entries : List (ν × FileTree ν α))
  deriving Repr

inductive Leaf (α : Type) where
  | file (content : α)
  | special
  | dir
  deriving DecidableEq, Repr

inductive Errno where
  | noent
  | exist
  | notdir
  | isdir
  | notempty
  | loop
  | io
  deriving DecidableEq, Repr

variable {ν α : Type}

def FileTree.leaf : FileTree ν α → Leaf α
  | .file content => .file content
  | .special => .special
  | .dir _ _ => .dir

def FileTree.entries : FileTree ν α → List (ν × FileTree ν α)
  | .dir _ entries => entries
  | _ => []

variable [DecidableEq ν]

def FileTree.child (t : FileTree ν α) (n : ν) : Option (FileTree ν α) := t.entries.lookup n

def sub : Option (FileTree ν α) → List ν → Option (FileTree ν α)
  | t, [] => t
  | t, n :: p => sub (t.bind (·.child n)) p

def look (t : Option (FileTree ν α)) (p : List ν) : Option (Leaf α) := (sub t p).map FileTree.leaf

def Same (t u : Option (FileTree ν α)) : Prop := ∀ p, look t p = look u p

variable {t u : Option (FileTree ν α)} {c d : FileTree ν α} {n m : ν} {p q : List ν}
  {es : List (ν × FileTree ν α)}

@[simp] theorem sub_cons (t : Option (FileTree ν α)) (n : ν) (p : List ν) :
    sub t (n :: p) = sub (t.bind (·.child n)) p := rfl

@[simp] theorem sub_none (p : List ν) : sub (none : Option (FileTree ν α)) p = none := by
  induction p with
  | nil => rfl
  | cons n p ih => exact ih

theorem sub_append (t : Option (FileTree ν α)) (p q : List ν) :
    sub t (p ++ q) = sub (sub t p) q := by
  induction p generalizing t with
  | nil => rfl
  | cons n p ih => exact ih _

theorem look_append (t : Option (FileTree ν α)) (p q : List ν) :
    look t (p ++ q) = look (sub t p) q :=
  congrArg _ (sub_append t p q)

@[simp] theorem look_none (p : List ν) : look (none : Option (FileTree ν α)) p = none := by
  rw [look, sub_none]
  rfl

@[simp] theorem look_some_nil (c : FileTree ν α) : look (some c) [] = some c.leaf := rfl

@[simp] theorem look_some_cons (c : FileTree ν α) (n : ν) (p : List ν) :
    look (some c) (n :: p) = look (c.child n) p := rfl

theorem look_cons (t : Option (FileTree ν α)) (n : ν) (p : List ν) :
    look t (n :: p) = look (t.bind (·.child n)) p := rfl

@[simp] theorem child_dir (mark : Bool) (n : ν) : (FileTree.dir mark es).child n = es.lookup n := rfl

@[simp] theorem child_file (b : α) (n : ν) : (FileTree.file b : FileTree ν α).child n = none := rfl

@[simp] theorem child_special (n : ν) : (FileTree.special : FileTree ν α).child n = none := rfl

theorem dir_of_look {l : Leaf α} (h : look (some c) (n :: p) = some l) :
    ∃ mark es, c = .dir mark es ∧ look (es.lookup n) p = some l := by
  cases c with
  | file b => rw [look_some_cons, child_file, look_none] at h; nomatch h
  | special => rw [look_some_cons, child_special, look_none] at h; nomatch h
  | dir mark es => exact ⟨mark, es, rfl, h⟩

theorem look_eq_dir_of_child (h : look t (p ++ n :: q) ≠ none) : look t p = some .dir := by
  rw [look_append] at h
  unfold look
  cases hs : sub t p with
  | none => rw [hs, look_none] at h; exact absurd rfl h
  | some s =>
    rw [hs, look_some_cons] at h
    cases s with
    | dir mark es => rfl
    | file b => rw [child_file, look_none] at h; exact absurd rfl h
    | special => rw [child_special, look_none] at h; exact absurd rfl h

/-! ## Entries -/

def setEntry (n : ν) (c : FileTree ν α) (es : List (ν × FileTree ν α)) : List (ν × FileTree ν α) :=
  (n, c) :: es.filter fun e => e.1 != n

def dropEntry (n : ν) (es : List (ν × FileTree ν α)) : List (ν × FileTree ν α) :=
  es.filter fun e => e.1 != n

@[simp] theorem lookup_dropEntry_self (n : ν) (es : List (ν × FileTree ν α)) :
    (dropEntry n es).lookup n = none := by
  apply List.lookup_eq_none_iff.mpr
  intro e he
  have hne := (List.mem_filter.mp he).2
  rw [bne_iff_ne] at hne
  exact bne_iff_ne.mpr hne.symm

theorem lookup_dropEntry_ne (h : m ≠ n) (es : List (ν × FileTree ν α)) :
    (dropEntry n es).lookup m = es.lookup m := by
  unfold dropEntry
  induction es with
  | nil => rfl
  | cons e es ih =>
    obtain ⟨k, c⟩ := e
    by_cases hk : k = n
    · have hm : (m == k) = false := beq_eq_false_iff_ne.mpr (hk ▸ h)
      rw [filter_cons_of_neg (by simp [hk]), ih, lookup_cons, hm]
    · rw [filter_cons_of_pos (by simp [hk]), lookup_cons, lookup_cons, ih]

@[simp] theorem lookup_setEntry_self (n : ν) (c : FileTree ν α) (es : List (ν × FileTree ν α)) :
    (setEntry n c es).lookup n = some c := by
  unfold setEntry
  rw [lookup_cons, beq_self_eq_true]

theorem lookup_setEntry_ne (h : m ≠ n) (c : FileTree ν α) (es : List (ν × FileTree ν α)) :
    (setEntry n c es).lookup m = es.lookup m := by
  have hm : (m == n) = false := beq_eq_false_iff_ne.mpr h
  unfold setEntry
  rw [lookup_cons, hm]
  exact lookup_dropEntry_ne h es

/-! ## Names are unique -/

def Wf (t : Option (FileTree ν α)) : Prop :=
  ∀ p c, sub t p = some c → (c.entries.map Prod.fst).Nodup

theorem Wf.child (h : Wf (some c)) (n : ν) : Wf (c.child n) := fun p d hd => h (n :: p) d hd

theorem wf_none : Wf (none : Option (FileTree ν α)) := by
  intro p c h
  rw [sub_none] at h
  nomatch h

theorem wf_some_iff : Wf (some c) ↔ (c.entries.map Prod.fst).Nodup ∧ ∀ n, Wf (c.child n) := by
  constructor
  · intro h
    exact ⟨h [] c rfl, h.child⟩
  · rintro ⟨hnodup, hchild⟩ p d hd
    cases p with
    | nil => exact Option.some.inj hd ▸ hnodup
    | cons n p => exact hchild n p d hd

theorem nodup_dropEntry (n : ν) (h : (es.map Prod.fst).Nodup) :
    ((dropEntry n es).map Prod.fst).Nodup :=
  h.sublist (List.filter_sublist.map Prod.fst)

variable {mark : Bool}

theorem wf_dropEntry (n : ν) (h : Wf (some (.dir mark es))) :
    Wf (some (.dir mark (dropEntry n es))) := by
  apply wf_some_iff.mpr
  refine ⟨nodup_dropEntry n (h [] _ rfl), ?_⟩
  intro m
  rw [child_dir]
  by_cases hm : m = n
  · rw [hm, lookup_dropEntry_self]
    exact wf_none
  · rw [lookup_dropEntry_ne hm]
    exact h.child m

theorem wf_setEntry (n : ν) (h : Wf (some (.dir mark es))) (hc : Wf (some c)) :
    Wf (some (.dir mark (setEntry n c es))) := by
  apply wf_some_iff.mpr
  constructor
  · have hnot : n ∉ (dropEntry n es).map Prod.fst := by
      intro hmem
      obtain ⟨e, he, heq⟩ := List.mem_map.mp hmem
      exact bne_iff_ne.mp (List.mem_filter.mp he).2 heq
    exact List.nodup_cons.mpr ⟨hnot, nodup_dropEntry n (h [] _ rfl)⟩
  · intro m
    rw [child_dir]
    by_cases hm : m = n
    · rw [hm, lookup_setEntry_self]
      exact hc
    · rw [lookup_setEntry_ne hm]
      exact h.child m

theorem wf_emptyDir (mark : Bool) : Wf (some (.dir mark [] : FileTree ν α)) := by
  apply wf_some_iff.mpr
  exact ⟨nodup_nil, fun n => wf_none⟩

theorem wf_file (b : α) : Wf (some (.file b : FileTree ν α)) := by
  apply wf_some_iff.mpr
  exact ⟨nodup_nil, fun n => wf_none⟩

theorem wf_special : Wf (some (.special : FileTree ν α)) := by
  apply wf_some_iff.mpr
  exact ⟨nodup_nil, fun n => wf_none⟩

/-! ## Changing one entry -/

abbrev Change (ν α : Type) := Option (FileTree ν α) → Except Errno (Option (FileTree ν α))

def onEntry (f : Change ν α) : List ν → ν → FileTree ν α → Except Errno (FileTree ν α)
  | [], n, .dir mark es =>
    match f (es.lookup n) with
    | .error e => .error e
    | .ok none => .ok (.dir mark (dropEntry n es))
    | .ok (some c) => .ok (.dir mark (setEntry n c es))
  | m :: p, n, .dir mark es =>
    match es.lookup m with
    | none => .error .noent
    | some c =>
      match onEntry f p n c with
      | .error e => .error e
      | .ok c => .ok (.dir mark (setEntry m c es))
  | _, _, _ => .error .notdir

structure Changed (p : List ν) (n : ν) (r : Option (FileTree ν α)) (c d : FileTree ν α) : Prop where
  entry : sub (some d) (p ++ [n]) = r
  parent : look (some c) p = some .dir
  frame : ∀ q, ¬(p ++ [n]) <+: q → look (some d) q = look (some c) q

variable {r : Option (FileTree ν α)}

theorem changed_here {es' : List (ν × FileTree ν α)}
    (hself : es'.lookup n = r) (hother : ∀ m, m ≠ n → es'.lookup m = es.lookup m) :
    Changed [] n r (.dir mark es) (.dir mark es') where
  entry := hself
  parent := rfl
  frame := by
    intro q hq
    cases q with
    | nil => rfl
    | cons m q =>
      have hm : m ≠ n := by
        intro heq
        exact hq ⟨q, by rw [heq]; rfl⟩
      rw [look_some_cons, look_some_cons, child_dir, child_dir, hother m hm]

variable {f : Change ν α}

theorem onEntry_cons {m : ν} (h : onEntry f (m :: p) n c = .ok d) : ∃ mark es c' d', c = .dir mark es ∧
    es.lookup m = some c' ∧ onEntry f p n c' = .ok d' ∧ d = .dir mark (setEntry m d' es) := by
  cases c with
  | file b | special => nomatch h
  | dir mark es =>
    rw [onEntry] at h
    cases hm : es.lookup m with
    | none => rw [hm] at h; nomatch h
    | some c' =>
      rw [hm] at h
      dsimp only at h
      cases hc : onEntry f p n c' with
      | error e => rw [hc] at h; nomatch h
      | ok d' =>
        rw [hc] at h
        cases h
        exact ⟨mark, es, c', d', rfl, hm, hc, rfl⟩

theorem onEntry_nil (h : onEntry f [] n c = .ok d) : ∃ mark es es', c = .dir mark es ∧
    d = .dir mark es' ∧ f (es.lookup n) = .ok (es'.lookup n) ∧
    ∀ m, m ≠ n → es'.lookup m = es.lookup m := by
  cases c with
  | file b | special => nomatch h
  | dir mark es =>
    rw [onEntry] at h
    cases hf : f (es.lookup n) with
    | error e => rw [hf] at h; nomatch h
    | ok r =>
      rw [hf] at h
      cases r with
      | none =>
        cases h
        refine ⟨mark, es, _, rfl, rfl, ?_, fun m hm => lookup_dropEntry_ne hm es⟩
        rw [hf, lookup_dropEntry_self]
      | some r =>
        cases h
        refine ⟨mark, es, _, rfl, rfl, ?_, fun m hm => lookup_setEntry_ne hm r es⟩
        rw [hf, lookup_setEntry_self]

theorem onEntry_changed (h : onEntry f p n c = .ok d) :
    ∃ r, f (sub (some c) (p ++ [n])) = .ok r ∧ Changed p n r c d := by
  induction p generalizing c d with
  | nil =>
    obtain ⟨mark, es, es', rfl, rfl, hf, hne⟩ := onEntry_nil h
    exact ⟨_, hf, changed_here rfl hne⟩
  | cons m p ih =>
    obtain ⟨mark, es, c', d', rfl, hm, hc, rfl⟩ := onEntry_cons h
    obtain ⟨r, hr, hchanged⟩ := ih hc
    refine ⟨r, ?_, ?_, ?_, ?_⟩
    · rw [cons_append, sub_cons, Option.bind_some, child_dir, hm]
      exact hr
    · rw [cons_append, sub_cons, Option.bind_some, child_dir, lookup_setEntry_self]
      exact hchanged.entry
    · rw [look_some_cons, child_dir, hm]
      exact hchanged.parent
    · intro q hq
      cases q with
      | nil => rfl
      | cons k q =>
        rw [look_some_cons, look_some_cons, child_dir, child_dir]
        by_cases hk : k = m
        · -- below the directory that was changed
          rw [hk, lookup_setEntry_self, hm]
          apply hchanged.frame
          intro hbegin
          apply hq
          rw [hk, cons_append]
          exact List.cons_prefix_cons.mpr ⟨rfl, hbegin⟩
        · rw [lookup_setEntry_ne hk]

/-- What is neither above nor below the entry is the same tree. -/
theorem onEntry_sub (h : onEntry f p n c = .ok d) (hbelow : ¬ p ++ [n] <+: q)
    (habove : ¬ q <+: p ++ [n]) : sub (some d) q = sub (some c) q := by
  induction p generalizing c d q with
  | nil =>
    obtain ⟨mark, es, es', rfl, rfl, -, hne⟩ := onEntry_nil h
    cases q with
    | nil => exact absurd nil_prefix habove
    | cons k q =>
      have hk : k ≠ n := fun hk => hbelow (hk ▸ ⟨q, rfl⟩)
      exact congrArg (sub · q) (hne k hk)
  | cons m p ih =>
    obtain ⟨mark, es, c', d', rfl, hm, hc, rfl⟩ := onEntry_cons h
    cases q with
    | nil => exact absurd nil_prefix habove
    | cons k q =>
      rw [cons_append, cons_prefix_cons] at hbelow habove
      rw [sub_cons, sub_cons, Option.bind_some, Option.bind_some, child_dir, child_dir]
      by_cases hk : k = m
      · rw [hk, lookup_setEntry_self, hm]
        exact ih hc (fun hq => hbelow ⟨hk.symm, hq⟩) fun hq => habove ⟨hk, hq⟩
      · rw [lookup_setEntry_ne hk]

theorem onEntry_ok (hdir : look (some c) p = some .dir) (hf : f (sub (some c) (p ++ [n])) = .ok r) :
    ∃ d, onEntry f p n c = .ok d := by
  induction p generalizing c with
  | nil =>
    cases c with
    | file b | special => nomatch hdir
    | dir mark es =>
      have hlookup : f (es.lookup n) = .ok r := hf
      rw [onEntry, hlookup]
      cases r with
      | none | some r => exact ⟨_, rfl⟩
  | cons m p ih =>
    obtain ⟨mark, es, rfl, hlook⟩ := dir_of_look hdir
    rw [cons_append, sub_cons, Option.bind_some, child_dir] at hf
    cases hm : es.lookup m with
    | none => rw [hm, look_none] at hlook; nomatch hlook
    | some c' =>
      rw [hm] at hlook hf
      obtain ⟨d, hd⟩ := ih hlook hf
      rw [onEntry, hm]
      dsimp only
      rw [hd]
      exact ⟨_, rfl⟩

theorem onEntry_wf (hf : ∀ t r, Wf t → f t = .ok r → Wf r)
    (hc : Wf (some c)) (h : onEntry f p n c = .ok d) : Wf (some d) := by
  induction p generalizing c d with
  | nil =>
    cases c with
    | file b | special => nomatch h
    | dir mark es =>
      rw [onEntry] at h
      cases hr : f (es.lookup n) with
      | error e => rw [hr] at h; nomatch h
      | ok r =>
        have hwf := hf _ r (hc.child n) hr
        rw [hr] at h
        cases r with
        | none =>
          cases h
          exact wf_dropEntry n hc
        | some r =>
          cases h
          exact wf_setEntry n hc hwf
  | cons m p ih =>
    obtain ⟨mark, es, c', d', rfl, hm, hd, rfl⟩ := onEntry_cons h
    have hc' : Wf (some c') := by
      rw [← hm]
      exact hc.child m
    exact wf_setEntry m hc (ih hc' hd)

end CosmoRuby.Lib
