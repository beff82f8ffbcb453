import CosmoRuby.Windows.NtPath
import Mathlib.Tactic.SplitIfs

/-!
# Which paths are normalized

The result of `__mkntpath` for an absolute path is the drive and the normalized components, exactly
if the path is no `/??/` path and nothing stands at the root that the normalizer keeps. The
spellings of a path with a drive letter agree, and the buffer is large enough.
-/

namespace CosmoRuby.Windows.NtPath

open List RootState

section

variable {st : RootState} {c : Component} {cs ds : List Component} {p : List Short}

/-! ## The names -/

theorem names_step (st : RootState) (c : Component) :
    (st.step c).names = pushComponent st.names c := by
  unfold step pushComponent
  by_cases hnil : c = []
  · rw [if_pos hnil, if_pos (Or.inl hnil)]
    split <;> rfl
  rw [if_neg hnil]
  by_cases hdot : c = [dot]
  · rw [if_pos hdot, if_pos (Or.inr hdot)]
  rw [if_neg hdot, if_neg (not_or.mpr ⟨hnil, hdot⟩)]
  by_cases hdots : c = [dot, dot]
  · rw [if_pos hdots, if_pos hdots]
    by_cases hnames : st.names ≠ []
    · rw [if_pos hnames]
    · rw [if_neg hnames, not_not.mp hnames]
      split <;> rfl
  · rw [if_neg hdots, if_neg hdots]

theorem pushComponent_nil (stack : List Component) : pushComponent stack [] = stack :=
  if_pos (Or.inl rfl)

theorem names_finish (st : RootState) (cs : List Component) :
    (st.finish cs).names = cs.foldl pushComponent st.names := by
  induction cs generalizing st with
  | nil => rfl
  | cons c cs ih =>
    cases cs with
    | nil =>
      show (st.stepEnd c).names = pushComponent st.names c
      unfold stepEnd
      split_ifs with hnil
      · rw [hnil, pushComponent_nil]
      · rw [names_step]
    | cons c' cs =>
      show ((st.step c).finish (c' :: cs)).names = _
      rw [ih, names_step]
      rfl

theorem ok_finish (h : st.Ok) (hcs : ∀ c ∈ cs, slash ∉ c) : (st.finish cs).Ok := by
  induction cs generalizing st with
  | nil => exact h
  | cons c cs ih =>
    have hstep := h.step (hcs c mem_cons_self)
    cases cs with
    | nil =>
      show (st.stepEnd c).Ok
      unfold stepEnd
      split
      · exact h
      · exact hstep
    | cons c' cs => exact ih hstep fun x hx => hcs x (mem_cons_of_mem _ hx)

/-! ## The marks at the root -/

theorem dots_le_step (st : RootState) (c : Component) : st.dots ≤ (st.step c).dots := by
  unfold step
  split_ifs <;> simp

theorem dots_le_finish (st : RootState) (cs : List Component) : st.dots ≤ (st.finish cs).dots := by
  induction cs generalizing st with
  | nil => exact Nat.le_refl _
  | cons c cs ih =>
    cases cs with
    | nil =>
      show st.dots ≤ (st.stepEnd c).dots
      unfold stepEnd
      split
      · exact Nat.le_refl _
      · exact dots_le_step st c
    | cons c' cs => exact Nat.le_trans (dots_le_step st c) (ih (st.step c))

def RootState.Unmarked (st : RootState) : Prop := st.dots = 0 ∧ (st.lead = 0 ∨ st.names = [])

theorem step_dots_root (hd : st.dots = 0) (hn : st.names = []) :
    st.step [dot, dot] = if st.lead = 0 then { st with dots := 1 } else { st with lead := 0 } := by
  unfold step
  rw [if_neg (by decide), if_neg (by decide), if_pos rfl, if_neg (not_not_intro hn), hd]
  by_cases hl : st.lead = 0
  · rw [if_pos hl, if_neg fun h => h.2 hl]
  · rw [if_neg hl, if_pos ⟨rfl, hl⟩]

theorem marks_step (hd : st.dots = 0) (hdots : ¬ (st.names = [] ∧ c = [dot, dot]))
    (hnil : ¬ (st.names = [] ∧ c = [])) :
    (st.step c).dots = 0 ∧ (st.step c).lead = st.lead := by
  unfold step
  by_cases h₁ : c = []
  · rw [if_pos h₁, if_neg fun h => hnil ⟨h.1, h₁⟩]
    exact ⟨hd, rfl⟩
  rw [if_neg h₁]
  split <;> rename_i h₂
  · exact ⟨hd, rfl⟩
  by_cases h₃ : c = [dot, dot]
  · rw [if_pos h₃, if_pos fun h => hdots ⟨h, h₃⟩]
    exact ⟨hd, rfl⟩
  · rw [if_neg h₃]
    exact ⟨hd, rfl⟩

theorem cleanFrom_iff {pending : Bool} (hd : st.dots = 0) (hlead : pending = true ↔ st.lead ≠ 0)
    (cs : List Component) : CleanFrom pending st.names cs ↔ (st.finish cs).Unmarked := by
  have hpending : pending = false ↔ st.lead = 0 := by rw [← Bool.not_eq_true, hlead, not_not]
  induction cs generalizing st pending with
  | nil =>
    show (pending = false ∨ st.names = []) ↔ st.dots = 0 ∧ _
    rw [hpending, and_iff_right hd]
    exact Iff.rfl
  | cons c cs ih =>
    cases cs with
    | nil =>
      show (if st.names = [] ∧ c = [dot, dot] then pending = true
        else pending = false ∨ pushComponent st.names c = []) ↔ (st.stepEnd c).Unmarked
      unfold stepEnd
      by_cases hdots : st.names = [] ∧ c = [dot, dot]
      · rw [if_pos hdots, hdots.2, if_neg (by decide), step_dots_root hd hdots.1, hlead]
        unfold Unmarked
        split <;> rename_i hl
        · exact iff_of_false (fun h => h hl) fun h => absurd h.1 Nat.one_ne_zero
        · exact iff_of_true hl ⟨hd, Or.inl rfl⟩
      · rw [if_neg hdots, hpending]
        unfold Unmarked
        by_cases hnil : c = []
        · rw [if_pos hnil, hnil, pushComponent_nil, and_iff_right hd]
        · obtain ⟨hd', hl'⟩ := marks_step hd hdots fun h => hnil h.2
          rw [if_neg hnil, hd', hl', names_step, and_iff_right rfl]
    | cons c' cs =>
      show (if st.names = [] ∧ c = [dot, dot] then
          pending = true ∧ CleanFrom false [] (c' :: cs)
        else if st.names = [] ∧ c = [] then CleanFrom true [] (c' :: cs)
        else CleanFrom pending (pushComponent st.names c) (c' :: cs)) ↔
          ((st.step c).finish (c' :: cs)).Unmarked
      split <;> rename_i hdots
      · rw [hdots.2, step_dots_root hd hdots.1, hlead]
        split <;> rename_i hl
        · refine iff_of_false (fun h => h.1 hl) fun h => ?_
          have hle := dots_le_finish { st with dots := 1 } (c' :: cs)
          have hzero := h.1
          simp only at hle
          omega
        · rw [and_iff_right hl, ← hdots.1]
          exact @ih { st with lead := 0 } false hd (by simp) (by simp)
      · split <;> rename_i hnil
        · have hstep : st.step [] = { st with lead := min 2 (st.lead + 1) } := by
            unfold step
            rw [if_pos rfl, if_pos ⟨hnil.1, hd⟩]
          rw [hnil.2, hstep, ← hnil.1]
          exact @ih { st with lead := min 2 (st.lead + 1) } true hd (by simp) (by simp)
        · obtain ⟨hd', hl'⟩ := marks_step hd hdots hnil
          rw [← hl'] at hlead hpending
          rw [← names_step]
          exact @ih (st.step c) pending hd' hlead hpending

/-! ## The text -/

theorem reverse_written (cs : List Component) (c : Component) :
    (c.reverse ++ written cs).reverse = [slash].intercalate (cs.reverse ++ [c]) := by
  have hforward : ∀ xs : List Component, xs.flatMap (fun x => x ++ [slash]) ++ c =
      [slash].intercalate (xs ++ [c]) := by
    intro xs
    induction xs with
    | nil => exact List.intercalate_singleton.symm
    | cons x xs ih =>
      obtain ⟨y, ys, hy⟩ := exists_cons_of_ne_nil
        (append_ne_nil_of_right_ne_nil xs (cons_ne_nil c []))
      rw [flatMap_cons, append_assoc, ih, cons_append, hy,
        intercalate_cons_cons]
  have hwritten : (written cs).reverse = cs.reverse.flatMap fun x => x ++ [slash] := by
    unfold written
    rw [reverse_flatMap]
    congr 1
    funext x
    simp
  rw [reverse_append, reverse_reverse, hwritten, hforward]

theorem strip_out (h : st.Ok) : (stripSlashes st.out).reverse =
    if st.kept = [] then [] else replicate st.lead slash ++ [slash].intercalate st.kept.reverse := by
  unfold out
  cases hk : st.kept with
  | nil =>
    rw [if_pos rfl]
    show (stripSlashes (replicate st.lead slash)).reverse = []
    rw [← append_nil (replicate st.lead slash), stripSlashes_replicate]
    rfl
  | cons c cs =>
    rw [if_neg (cons_ne_nil _ _), written_cons, cons_append, stripSlashes_slash]
    -- the last component does not begin with a slash when it is read backwards
    have hhead : ∃ x xs, c.reverse = x :: xs ∧ x ≠ slash := by
      have hmem : c ∈ st.kept := hk ▸ mem_cons_self
      rcases List.mem_append.mp hmem with hc | hc
      · obtain ⟨x, xs, hr, hx, -⟩ := (h.names c hc).reverse_eq
        exact ⟨x, xs, hr, hx⟩
      · rw [eq_of_mem_replicate hc]
        exact ⟨dot, [dot], rfl, dot_ne_slash⟩
    obtain ⟨x, xs, hr, hx⟩ := hhead
    have hstrip : stripSlashes (c.reverse ++ written cs ++ replicate st.lead slash) =
        c.reverse ++ written cs ++ replicate st.lead slash := by
      rw [hr, cons_append, cons_append, stripSlashes_of_head hx]
    rw [hstrip, reverse_append, reverse_replicate, reverse_written, reverse_cons]

theorem length_intercalate_le (xs ys : List Component) :
    ([slash].intercalate ys).length ≤ ([slash].intercalate (xs ++ ys)).length := by
  induction xs with
  | nil => exact Nat.le_refl _
  | cons x xs ih =>
    rw [cons_append]
    cases hrest : xs ++ ys with
    | nil =>
      rw [hrest] at ih
      refine Nat.le_trans ih ?_
      rw [intercalate_nil]
      exact Nat.zero_le _
    | cons z zs =>
      rw [hrest] at ih
      rw [intercalate_cons_cons, length_append]
      omega

theorem unmarked_of_length (h : st.Ok)
    (hlen : (stripSlashes st.out).reverse.length = ([slash].intercalate st.names.reverse).length) :
    st.Unmarked := by
  rw [strip_out h] at hlen
  unfold kept at hlen
  by_cases hnil : st.names ++ replicate st.dots [dot, dot] = []
  · obtain ⟨hn, hd⟩ := List.append_eq_nil_iff.mp hnil
    have hzero := congrArg List.length hd
    rw [length_replicate] at hzero
    exact ⟨hzero, Or.inr hn⟩
  rw [if_neg hnil, length_append, length_replicate, reverse_append,
    reverse_replicate] at hlen
  have hle := length_intercalate_le (replicate st.dots [dot, dot]) st.names.reverse
  refine ⟨?_, Or.inl (by omega)⟩
  -- one `..` is two shorts
  by_contra hd
  obtain ⟨d, hd'⟩ := Nat.exists_eq_succ_of_ne_zero hd
  rw [hd', replicate_succ, cons_append] at hlen
  have hrest := length_intercalate_le (replicate d [dot, dot]) st.names.reverse
  cases hx : replicate d [dot, dot] ++ st.names.reverse with
  | nil =>
    obtain ⟨-, hn⟩ := List.append_eq_nil_iff.mp hx
    rw [hx, hn, intercalate_singleton, intercalate_nil] at hlen
    simp only [length_cons, length_nil] at hlen
    omega
  | cons z zs =>
    rw [hx] at hrest
    rw [hx, intercalate_cons_cons, length_append, length_append] at hlen
    simp only [length_cons, length_nil] at hlen
    omega

theorem strip_out_of_unmarked (h : st.Ok) (hmark : st.Unmarked) :
    (stripSlashes st.out).reverse = [slash].intercalate st.names.reverse := by
  obtain ⟨hd, hl⟩ := hmark
  rw [strip_out h]
  unfold kept
  rw [hd, replicate_zero, append_nil]
  split_ifs with hn
  · rw [hn]
    rfl
  · rw [hl.resolve_right hn]
    rfl

theorem toBackslash_intercalate (hcs : ∀ c ∈ cs, slash ∉ c) :
    toBackslash ([slash].intercalate cs) = [backslash].intercalate cs := by
  have hone : ∀ c : Component, slash ∉ c → toBackslash c = c := by
    intro c hc
    unfold toBackslash
    refine (map_congr_left fun x hx => ?_).trans (map_id c)
    refine if_neg ?_
    rintro rfl
    exact hc hx
  induction cs with
  | nil => rfl
  | cons c cs ih =>
    have hc := hone c (hcs c mem_cons_self)
    have hrest := ih fun x hx => hcs x (mem_cons_of_mem _ hx)
    cases cs with
    | nil => rw [intercalate_singleton, intercalate_singleton, hc]
    | cons c' cs =>
      rw [intercalate_cons_cons, intercalate_cons_cons, ← hrest]
      unfold toBackslash at hc ⊢
      rw [map_append, map_append, hc]
      rfl

theorem normUnixPath_iff_clean (p : List Short) :
    toBackslash (normUnixPath p) = [backslash].intercalate (normalized p) ↔ Clean p := by
  have hok : (rootStart.finish (components p)).Ok :=
    ok_finish ok_rootStart (no_slash_components p)
  have hnames : (rootStart.finish (components p)).names.reverse = normalized p := by
    rw [names_finish]
    rfl
  have hslash : ∀ c ∈ normalized p, slash ∉ c := by
    intro c hc
    rw [← hnames, mem_reverse] at hc
    exact (hok.names c hc).no_slash
  have hclean : Clean p ↔ (rootStart.finish (components p)).Unmarked :=
    @cleanFrom_iff rootStart _ rfl (by decide) (components p)
  rw [hclean, ← toBackslash_intercalate hslash]
  constructor
  · intro heq
    have hlen := congrArg List.length heq
    unfold toBackslash at hlen
    rw [length_map, length_map, normUnixPath_eq, ← hnames] at hlen
    exact unmarked_of_length hok hlen
  · intro hmark
    rw [normUnixPath_eq, strip_out_of_unmarked hok hmark, hnames]

/-! ## Lengths -/

theorem length_backUp (out : List Short) : (backUp out).length ≤ out.length + 2 := by
  have hdrop : (dropName out).length ≤ out.length := (dropWhile_sublist _).length_le
  unfold backUp
  split_ifs
  · exact Nat.le_refl _
  · omega
  · omega
  · omega

theorem length_normLoop (p : List Short) (skip : Bool) (out : List Short) :
    (normLoop p skip out).length ≤ p.length + out.length := by
  induction p generalizing skip out with
  | nil => simp [normLoop]
  | cons c rest ih =>
    cases skip with
    | true =>
      have h := ih false out
      rw [normLoop, length_cons]
      omega
    | false =>
      rw [normLoop, length_cons]
      split_ifs with h₁ h₂ h₃
      · have h := ih false out
        omega
      · have h := ih true out
        omega
      · have h := ih false (backUp (stripSlashes out))
        have hback := length_backUp (stripSlashes out)
        -- at least one slash was taken off
        have hstrip : (stripSlashes out).length + 1 ≤ out.length := by
          cases out with
          | nil => exact absurd h₃.1 (by simp)
          | cons x out =>
            have hx : x = slash := Option.some.inj h₃.1
            rw [hx, stripSlashes_slash, length_cons]
            exact Nat.succ_le_succ (dropWhile_sublist _).length_le
        omega
      · have h := ih false (c :: out)
        rw [length_cons] at h
        omega

theorem length_normUnixPath (p : List Short) : (normUnixPath p).length ≤ p.length := by
  unfold normUnixPath stripSlashes
  rw [length_reverse]
  have hdrop := (dropWhile_sublist (fun c => decide (c = slash)) (l := normLoop p false [])).length_le
  have hloop := length_normLoop p false []
  rw [length_nil] at hloop
  omega

theorem length_driveOf (systemDrive : Short) (p : List Short) :
    (driveOf systemDrive p).2.length ≤ p.length := by
  unfold driveOf
  split
  · exact Nat.zero_le _
  · split <;> simp
  · split
    · simp only [length_cons]
      omega
    · simp only [tail_cons, length_cons]
      omega
  · exact Nat.zero_le _

theorem length_absolutePath (systemDrive : Short) (p : List Short) :
    (absolutePath systemDrive p).length ≤ p.length + 7 := by
  have hnorm := length_normUnixPath (driveOf systemDrive p).2
  have hdrive := length_driveOf systemDrive p
  unfold absolutePath pfxDrive toBackslash
  simp only [length_append, length_map, magicPrefix, length_cons, length_nil]
  omega

/-! ## Absolute paths -/

variable {systemDrive : Short} {path : List Nat} {relative : List Short → Option (List Short)}
  {isFile : List Short → Bool}

structure Absolute (p : List Short) : Prop where
  first : p.head? = some slash
  second : p.getD 1 0 ≠ slash

theorem ne_of_isAlpha {c : Short} (hc : isAlpha c = true) :
    c ≠ slash ∧ c ≠ backslash ∧ c ≠ question := by
  refine ⟨?_, ?_, ?_⟩ <;>
  · rintro rfl
    exact absurd hc (by decide)

theorem isAlpha_driveOf (hdrive : isAlpha systemDrive = true) (p : List Short) :
    isAlpha (driveOf systemDrive p).1 = true := by
  unfold driveOf
  split
  · exact hdrive
  · split
    · assumption
    · exact hdrive
  · split
    · rename_i h
      exact h.1
    · exact hdrive
  · exact hdrive

theorem shapeOf_absolute (h : Absolute p) : shapeOf p = .native ∨ shapeOf p = .plain := by
  obtain ⟨t, rfl⟩ : ∃ t, p = slash :: t := by
    cases p with
    | nil => cases h.first
    | cons x t => exact ⟨t, by rw [Option.some.inj h.first]⟩
  unfold shapeOf
  rw [if_neg fun hno => absurd (show isAlpha slash = true from hno.1) (by decide)]
  split
  · exact Or.inl rfl
  · rw [if_neg fun hno => h.second hno.2]
    exact Or.inr rfl

theorem rewriteDrive_absolute (h : p.head? = some slash) : rewriteDrive p = p := by
  unfold rewriteDrive
  split
  · rename_i c d s rest
    have hc : c = slash := Option.some.inj h
    rw [hc, if_neg fun hno => absurd hno.1 (by decide)]
  · rfl

theorem mkNtPath_some {r : List Short}
    (h : mkNtPath systemDrive relative isFile path = some r) :
    ∃ long, normDosPath systemDrive relative path = some long ∧ r = dropMagic long := by
  unfold mkNtPath at h
  cases hnorm : normDosPath systemDrive relative path with
  | none =>
    rw [hnorm] at h
    cases h
  | some long =>
    rw [hnorm] at h
    refine ⟨long, rfl, ?_⟩
    simp only at h
    split at h
    · cases h
    · split at h
      · cases h
      · exact (Option.some.inj h).symm

theorem normDosPath_absolute {long : List Short} (habs : Absolute (pathUnits path))
    (h : normDosPath systemDrive relative path = some long) :
    (pathUnits path).length + 7 + 1 ≤ pathMax ∧
      ((shapeOf (pathUnits path) = .native ∧ long = toBackslash (pathUnits path)) ∨
        (shapeOf (pathUnits path) = .plain ∧ long = absolutePath systemDrive (pathUnits path))) := by
  unfold normDosPath at h
  split at h
  · cases h
  split at h
  · cases h
  rename_i hlen
  refine ⟨Nat.le_of_not_lt hlen, ?_⟩
  rcases shapeOf_absolute habs with hshape | hshape
  · rw [hshape] at h
    exact Or.inl ⟨hshape, (Option.some.inj h).symm⟩
  · rw [hshape] at h
    refine Or.inr ⟨hshape, ?_⟩
    simp only [resolve] at h
    rw [rewriteDrive_absolute habs.first, if_pos habs.first] at h
    exact (Option.some.inj h).symm

theorem dropMagic_cases (d : Short) (x : List Short) :
    dropMagic (magicPrefix ++ [d, colon, backslash] ++ x) = [d, colon, backslash] ++ x ∨
      dropMagic (magicPrefix ++ [d, colon, backslash] ++ x) =
        magicPrefix ++ [d, colon, backslash] ++ x := by
  unfold dropMagic
  split
  · exact Or.inl rfl
  · exact Or.inr rfl

theorem normal_plain_iff (hdrive : isAlpha systemDrive = true) (p : List Short) :
    (dropMagic (absolutePath systemDrive p) = normalPath systemDrive p ∨
      dropMagic (absolutePath systemDrive p) = magicPrefix ++ normalPath systemDrive p) ↔
      Clean (driveOf systemDrive p).2 := by
  have halpha := isAlpha_driveOf hdrive p
  have hne := (ne_of_isAlpha halpha).2.1
  rw [← normUnixPath_iff_clean]
  unfold absolutePath pfxDrive normalPath
  generalize (driveOf systemDrive p).1 = d at halpha hne ⊢
  generalize toBackslash (normUnixPath (driveOf systemDrive p).2) = x
  generalize [backslash].intercalate (normalized (driveOf systemDrive p).2) = y
  rcases dropMagic_cases d x with hdrop | hdrop
  · rw [hdrop]
    constructor
    · rintro (heq | heq)
      · exact append_cancel_left heq
      · exact absurd (List.cons.inj heq).1 hne
    · rintro rfl
      exact Or.inl rfl
  · rw [hdrop]
    constructor
    · rintro (heq | heq)
      · exact absurd (List.cons.inj heq).1.symm hne
      · rw [append_assoc] at heq
        exact append_cancel_left (append_cancel_left heq)
    · rintro rfl
      refine Or.inr ?_
      rw [append_assoc]

theorem not_normal_native (hdrive : isAlpha systemDrive = true) (hshape : shapeOf p = .native) :
    ¬ (dropMagic (toBackslash p) = normalPath systemDrive p ∨
      dropMagic (toBackslash p) = magicPrefix ++ normalPath systemDrive p) := by
  have halpha := isAlpha_driveOf hdrive p
  have hne := (ne_of_isAlpha halpha).2.1
  -- the path begins with a slash and a question mark
  obtain ⟨t, rfl⟩ : ∃ t, p = slash :: question :: t := by
    unfold shapeOf at hshape
    split at hshape
    · cases hshape
    split at hshape
    · rename_i hnative
      obtain ⟨h₀, h₁, -⟩ := hnative
      cases p with
      | nil => exact absurd h₀ (by decide)
      | cons a p =>
        cases p with
        | nil => exact absurd (show (0 : Short) = question from h₁) (by decide)
        | cons b t =>
          have ha : a = slash := h₀
          have hb : b = question := h₁
          exact ⟨t, by rw [ha, hb]⟩
    · split at hshape
      · split at hshape <;> cases hshape
      · cases hshape
  have htext : toBackslash (slash :: question :: t) = backslash :: question :: toBackslash t := rfl
  have hdrop : dropMagic (backslash :: question :: toBackslash t) =
      backslash :: question :: toBackslash t := by
    unfold dropMagic
    refine if_neg ?_
    rintro ⟨-, hmagic, -⟩
    have hsecond := (List.cons.inj (List.cons.inj hmagic).2).1
    exact absurd hsecond (by decide)
  rw [htext, hdrop]
  rintro (heq | heq)
  · exact hne (List.cons.inj heq).1.symm
  · have hsecond := (List.cons.inj (List.cons.inj heq).2).1
    exact absurd hsecond (by decide)

/-! ## Spellings -/

def IsLetter (d : Nat) : Prop := (65 ≤ d ∧ d ≤ 90) ∨ (97 ≤ d ∧ d ≤ 122)

theorem isAlpha_ofNat {d : Nat} (hd : IsLetter d) : isAlpha (UInt16.ofNat d) = true := by
  have hlt : d < 65536 := by
    unfold IsLetter at hd
    omega
  unfold isAlpha
  rw [toNat_ofNat_unit hlt]
  unfold IsLetter at hd
  simp only [Bool.or_eq_true, Bool.and_eq_true, decide_eq_true_eq]
  exact hd

theorem pathUnits_cons {v : Nat} (hv : v < 65536) (path : List Nat) :
    pathUnits (v :: path) =
      (if UInt16.ofNat v = backslash then slash else UInt16.ofNat v) :: pathUnits path := by
  unfold pathUnits
  rw [flatMap_cons, map_append]
  have hone : encodeUtf16 v = [UInt16.ofNat v] := if_pos hv
  rw [hone]
  rfl

theorem pathUnits_letter {d : Nat} (hd : IsLetter d) (path : List Nat) :
    pathUnits (d :: path) = UInt16.ofNat d :: pathUnits path := by
  rw [pathUnits_cons (by unfold IsLetter at hd; omega),
    if_neg (ne_of_isAlpha (isAlpha_ofNat hd)).2.1]

theorem pathUnits_colon (path : List Nat) : pathUnits (58 :: path) = colon :: pathUnits path :=
  pathUnits_cons (by decide) path

theorem pathUnits_slash (path : List Nat) : pathUnits (47 :: path) = slash :: pathUnits path :=
  pathUnits_cons (by decide) path

theorem pathUnits_backslash (path : List Nat) : pathUnits (92 :: path) = slash :: pathUnits path :=
  pathUnits_cons (by decide) path

theorem pathUnits_question (path : List Nat) : pathUnits (63 :: path) = question :: pathUnits path :=
  pathUnits_cons (by decide) path

theorem resolve_rewritten {d : Short} {path rest : List Short} (hd : isAlpha d = true)
    (hrewrite : rewriteDrive path = slash :: d :: slash :: rest) :
    resolve systemDrive relative path = some (pfxDrive rest d) := by
  have hof : driveOf systemDrive (slash :: d :: slash :: rest) = (d, rest) := if_pos ⟨hd, rfl⟩
  unfold resolve
  rw [hrewrite, if_pos (show (slash :: d :: slash :: rest).head? = some slash from rfl)]
  unfold absolutePath
  rw [hof]

section

variable {d : Short} (hd : isAlpha d = true) (rest : List Short)
include hd

theorem resolve_drive :
    resolve systemDrive relative (d :: colon :: slash :: rest) = some (pfxDrive rest d) :=
  resolve_rewritten hd (if_pos ⟨hd, rfl, rfl⟩)

theorem resolve_slash_drive :
    resolve systemDrive relative (slash :: d :: slash :: rest) = some (pfxDrive rest d) :=
  resolve_rewritten hd (rewriteDrive_absolute rfl)

theorem shapeOf_drive : shapeOf (d :: colon :: slash :: rest) = .plain := by
  obtain ⟨hslash, -, -⟩ := ne_of_isAlpha hd
  unfold shapeOf
  rw [if_neg fun h => h.2.2 rfl, if_neg fun h => hslash h.1, if_neg fun h => hslash h.1]

theorem shapeOf_slash_drive : shapeOf (slash :: d :: slash :: rest) = .plain := by
  obtain ⟨hslash, -, hquestion⟩ := ne_of_isAlpha hd
  unfold shapeOf
  rw [if_neg fun h => Bool.false_ne_true h.1, if_neg fun h => hquestion h.2.1,
    if_neg fun h => hslash h.2]

theorem shapeOf_device :
    shapeOf (slash :: slash :: question :: slash :: d :: colon :: slash :: rest) = .device := by
  have hnative : ¬ ((slash :: slash :: question :: slash :: d :: colon :: slash :: rest).getD 1 0 =
      question) := by
    show ¬ slash = question
    decide
  unfold shapeOf
  rw [if_neg fun h => Bool.false_ne_true h.1, if_neg fun h => hnative h.2.1, if_pos ⟨rfl, rfl⟩,
    if_pos ⟨Or.inl rfl, rfl, hd, rfl⟩]

end

theorem normDosPath_spelling {d : Nat} (hd : IsLetter d) (rest : List Nat) :
    let long := pfxDrive (pathUnits rest) (UInt16.ofNat d)
    let fits := (pathUnits rest).length + 3 + 7 + 1 ≤ pathMax
    normDosPath systemDrive relative (d :: 58 :: 92 :: rest) = (if fits then some long else none) ∧
    normDosPath systemDrive relative (d :: 58 :: 47 :: rest) = (if fits then some long else none) ∧
    normDosPath systemDrive relative (47 :: d :: 47 :: rest) = (if fits then some long else none) ∧
    (normDosPath systemDrive relative (92 :: 92 :: 63 :: 92 :: d :: 58 :: 92 :: rest) = none ∨
      fits ∧ normDosPath systemDrive relative (92 :: 92 :: 63 :: 92 :: d :: 58 :: 92 :: rest) =
        some long) := by
  intro long fits
  have halpha := isAlpha_ofNat hd
  have hplain : ∀ q : List Nat, q ≠ [] →
      (pathUnits q = UInt16.ofNat d :: colon :: slash :: pathUnits rest ∨
        pathUnits q = slash :: UInt16.ofNat d :: slash :: pathUnits rest) →
      normDosPath systemDrive relative q = if fits then some long else none := by
    intro q hq hunits
    have hlen : (pathUnits q).length = (pathUnits rest).length + 3 := by
      rcases hunits with h | h <;> rw [h] <;> rfl
    unfold normDosPath
    rw [if_neg hq, hlen]
    by_cases hfits : fits
    · rw [if_pos hfits, if_neg (Nat.not_lt.mpr hfits)]
      rcases hunits with h | h
      · rw [h, shapeOf_drive halpha]
        exact resolve_drive halpha _
      · rw [h, shapeOf_slash_drive halpha]
        exact resolve_slash_drive halpha _
    · rw [if_neg hfits, if_pos (Nat.lt_of_not_le hfits)]
  refine ⟨hplain _ (cons_ne_nil _ _) (Or.inl ?_), hplain _ (cons_ne_nil _ _) (Or.inl ?_),
    hplain _ (cons_ne_nil _ _) (Or.inr ?_), ?_⟩
  · rw [pathUnits_letter hd, pathUnits_colon, pathUnits_backslash]
  · rw [pathUnits_letter hd, pathUnits_colon, pathUnits_slash]
  · rw [pathUnits_slash, pathUnits_letter hd, pathUnits_slash]
  · have hunits : pathUnits (92 :: 92 :: 63 :: 92 :: d :: 58 :: 92 :: rest) =
        slash :: slash :: question :: slash :: UInt16.ofNat d :: colon :: slash ::
          pathUnits rest := by
      rw [pathUnits_backslash, pathUnits_backslash, pathUnits_question, pathUnits_backslash,
        pathUnits_letter hd, pathUnits_colon, pathUnits_backslash]
    unfold normDosPath
    rw [if_neg (cons_ne_nil _ _), hunits]
    split_ifs with hlong
    · exact Or.inl rfl
    · rw [shapeOf_device halpha]
      refine Or.inr ⟨?_, resolve_drive halpha _⟩
      simp only [length_cons] at hlong
      show _ ≤ pathMax
      omega

end

theorem mkNtPath_congr {systemDrive : Short} {relative : List Short → Option (List Short)}
    {isFile : List Short → Bool} {q q' : List Nat}
    (hnorm : normDosPath systemDrive relative q = normDosPath systemDrive relative q')
    (hlast : (q.getLast? = some 47 ∨ q.getLast? = some 92) ↔
      (q'.getLast? = some 47 ∨ q'.getLast? = some 92)) :
    mkNtPath systemDrive relative isFile q = mkNtPath systemDrive relative isFile q' := by
  unfold mkNtPath
  rw [hnorm]
  simp only [hlast]

/-- The result for an absolute path: the drive and the normalized components, with the magic prefix
or without, in a buffer that is large enough. -/
structure NtPathOk (systemDrive : Short) (path : List Nat) (r : List Short) : Prop where
  normal : r = normalPath systemDrive (pathUnits path) ∨
    r = magicPrefix ++ normalPath systemDrive (pathUnits path)
  result : r.length + 1 ≤ pathMax
  buffer : (pathUnits path).length + 7 + 1 ≤ pathMax

/-- An absolute path is normalized exactly if it is no `/??/` path and clean at the root; and the
spellings of a path with a drive letter agree. -/
theorem mkNtPath_normal_iff_clean {systemDrive : Short} (hdrive : isAlpha systemDrive = true)
    (relative : List Short → Option (List Short)) (isFile : List Short → Bool) :
    (∀ path r, Absolute (pathUnits path) → mkNtPath systemDrive relative isFile path = some r →
      (NtPathOk systemDrive path r ↔ shapeOf (pathUnits path) ≠ .native ∧
        Clean (driveOf systemDrive (pathUnits path)).2)) ∧
    ∀ d rest, IsLetter d →
      mkNtPath systemDrive relative isFile (d :: 58 :: 92 :: rest) =
        mkNtPath systemDrive relative isFile (47 :: d :: 47 :: rest) ∧
      mkNtPath systemDrive relative isFile (d :: 58 :: 47 :: rest) =
        mkNtPath systemDrive relative isFile (47 :: d :: 47 :: rest) ∧
      ∀ r, mkNtPath systemDrive relative isFile (92 :: 92 :: 63 :: 92 :: d :: 58 :: 92 :: rest) =
          some r → mkNtPath systemDrive relative isFile (47 :: d :: 47 :: rest) = some r := by
  constructor
  · intro path r habs h
    obtain ⟨long, hnorm, rfl⟩ := mkNtPath_some h
    obtain ⟨hbuffer, hcase⟩ := normDosPath_absolute habs hnorm
    have hdrop : (dropMagic long).length ≤ long.length := by
      unfold dropMagic
      split
      · rw [length_drop]
        omega
      · exact Nat.le_refl _
    rcases hcase with ⟨hshape, rfl⟩ | ⟨hshape, rfl⟩
    · refine iff_of_false (fun hok => not_normal_native hdrive hshape hok.normal) fun hok => ?_
      exact hok.1 hshape
    · have hlong := length_absolutePath systemDrive (pathUnits path)
      rw [← normal_plain_iff hdrive]
      constructor
      · intro hok
        refine ⟨?_, hok.normal⟩
        rw [hshape]
        exact fun hno => by cases hno
      · exact fun hok => ⟨hok.2, by omega, hbuffer⟩
  · intro d rest hd
    obtain ⟨h₁, h₂, h₃, h₄⟩ :=
      @normDosPath_spelling systemDrive relative d hd rest
    have hlast : ∀ q : List Nat, q.getLast? = some 47 ∨ q.getLast? = some 92 →
        (((q ++ rest).getLast? = some 47 ∨ (q ++ rest).getLast? = some 92) ↔
          (rest = [] ∨ rest.getLast? = some 47 ∨ rest.getLast? = some 92)) := by
      intro q hq
      cases rest with
      | nil =>
        rw [append_nil]
        exact iff_of_true hq (Or.inl rfl)
      | cons x xs =>
        rw [List.getLast?_append_of_ne_nil _ (cons_ne_nil x xs)]
        exact (or_iff_right (cons_ne_nil x xs)).symm
    have hlast₁ := hlast [d, 58, 92] (Or.inr rfl)
    have hlast₂ := hlast [d, 58, 47] (Or.inl rfl)
    have hlast₃ := hlast [47, d, 47] (Or.inl rfl)
    have hlast₄ := hlast [92, 92, 63, 92, d, 58, 92] (Or.inr rfl)
    refine ⟨mkNtPath_congr (h₁.trans h₃.symm) (hlast₁.trans hlast₃.symm),
      mkNtPath_congr (h₂.trans h₃.symm) (hlast₂.trans hlast₃.symm), fun r hr => ?_⟩
    rcases h₄ with h₄ | ⟨hfits, h₄⟩
    · obtain ⟨long, hnorm, -⟩ := mkNtPath_some hr
      rw [h₄] at hnorm
      cases hnorm
    · rw [← hr]
      refine mkNtPath_congr ?_ (hlast₃.trans hlast₄.symm)
      rw [h₃, h₄, if_pos hfits]

/-- `/c/usr/./lib/..//bin` on drive `c`. -/
theorem mkNtPath_clean_path :
    mkNtPath 67 (fun _ => none) (fun _ => false)
        [47, 99, 47, 117, 47, 46, 47, 108, 47, 46, 46, 47, 47, 98] =
      some [99, 58, 92, 117, 92, 98] ∧
    NtPathOk 67 [47, 99, 47, 117, 47, 46, 47, 108, 47, 46, 46, 47, 47, 98]
      [99, 58, 92, 117, 92, 98] :=
  ⟨by decide, ((mkNtPath_normal_iff_clean (by decide) (fun _ => none) fun _ => false).1 _ _
    ⟨by decide, by decide⟩ (by decide)).2 ⟨by decide, by decide⟩⟩

/-- `/../f` becomes `C:\..\f`, where the normalized path is `C:\f`. -/
theorem mkNtPath_keeps_parent :
    mkNtPath 67 (fun _ => none) (fun _ => false) [47, 46, 46, 47, 102] =
      some [67, 58, 92, 46, 46, 92, 102] ∧
    normalPath 67 (pathUnits [47, 46, 46, 47, 102]) = [67, 58, 92, 102] ∧
    ¬ NtPathOk 67 [47, 46, 46, 47, 102] [67, 58, 92, 46, 46, 92, 102] := by
  refine ⟨by decide, by decide, fun hok => ?_⟩
  exact absurd hok.normal (by decide)

end CosmoRuby.Windows.NtPath