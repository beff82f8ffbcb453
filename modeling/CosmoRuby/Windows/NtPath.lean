import CosmoRuby.Windows.Transcode

/-!
# Paths for Windows

`libc/calls/mkntpath.c` turns a path into what the Windows functions take: UTF-16, a drive letter,
backslashes, and components that are normalized, with the magic prefix for long paths. The
normalizer works on what follows the drive, as on a relative path: there it keeps `..` and empty
components that stand at the root.
-/

namespace CosmoRuby.Windows.NtPath

open List

abbrev Short := UInt16

def slash : Short := 47

def dot : Short := 46

def backslash : Short := 92

def colon : Short := 58

def question : Short := 63

def space : Short := 32

def pathMax : Nat := 1024

/-! ## `__normunixpath`

The source writes the output over its input, behind the place where it reads. Here the output is a
list of its own, the last short first. -/

def stripSlashes (out : List Short) : List Short := out.dropWhile fun c => c = slash

def dropName (out : List Short) : List Short := out.dropWhile fun c => ¬ c = slash

/-- The output after `/..`, from which the slashes have been taken off. After `..` one more is put,
on the slash that is still there. -/
def backUp (out : List Short) : List Short :=
  if out.head? = some dot then
    if out.tail.head? = some dot ∧ (out.tail.tail = [] ∨ out.tail.tail.head? = some slash) then
      dot :: slash :: out
    else if out.tail = [] ∨ out.tail.head? = some slash then out
    else dropName out
  else dropName out

def normLoop : List Short → Bool → List Short → List Short
  | [], _, out => out
  | _ :: rest, true, out => normLoop rest false out
  | c :: rest, false, out =>
    if 1 < out.length ∧ c = slash ∧ out.head? = some slash then normLoop rest false out
    else if (out = [] ∨ out.head? = some slash) ∧ c = dot ∧
        (rest = [] ∨ rest.head? = some slash) then
      normLoop rest true out
    else if out.head? = some slash ∧ c = dot ∧ rest.head? = some dot ∧
        (rest.tail = [] ∨ rest.tail.head? = some slash) then
      normLoop rest false (backUp (stripSlashes out))
    else normLoop rest false (c :: out)

def normUnixPath (p : List Short) : List Short := (stripSlashes (normLoop p false [])).reverse

/-! ## `__normdospath` -/

def isAlpha (c : Short) : Bool :=
  (decide (65 ≤ c.toNat) && decide (c.toNat ≤ 90)) ||
    (decide (97 ≤ c.toNat) && decide (c.toNat ≤ 122))

def toBackslash (p : List Short) : List Short := p.map fun c => if c = slash then backslash else c

def magicPrefix : List Short := [backslash, backslash, question, backslash]

def pfxDrive (p : List Short) (drive : Short) : List Short :=
  magicPrefix ++ [drive, colon, backslash] ++ toBackslash (normUnixPath p)

/-- The drive of an absolute path and what follows it: `/`, `/c`, `/c/foo` and `/foo`. -/
def driveOf (systemDrive : Short) : List Short → Short × List Short
  | [_] => (systemDrive, [])
  | [_, c] => if isAlpha c then (c, []) else (systemDrive, [c])
  | s :: c :: s' :: rest =>
    if isAlpha c ∧ s' = slash then (c, rest) else (systemDrive, (s :: c :: s' :: rest).tail)
  | [] => (systemDrive, [])

def absolutePath (systemDrive : Short) (p : List Short) : List Short :=
  pfxDrive (driveOf systemDrive p).2 (driveOf systemDrive p).1

def rewriteDrive : List Short → List Short
  | c :: d :: s :: rest =>
    if isAlpha c ∧ d = colon ∧ s = slash then slash :: c :: s :: rest else c :: d :: s :: rest
  | p => p

inductive Shape where
  | driveRelative
  | native
  | device
  | unc
  | plain
deriving DecidableEq, Repr

def shapeOf (p : List Short) : Shape :=
  if isAlpha (p.getD 0 0) ∧ p.getD 1 0 = colon ∧ ¬ p.getD 2 0 = slash then .driveRelative
  else if p.getD 0 0 = slash ∧ p.getD 1 0 = question ∧ p.getD 2 0 = question ∧
      p.getD 3 0 = slash then .native
  else if p.getD 0 0 = slash ∧ p.getD 1 0 = slash then
    if (p.getD 2 0 = question ∨ p.getD 2 0 = dot) ∧ p.getD 3 0 = slash ∧ isAlpha (p.getD 4 0) ∧
        p.getD 5 0 = colon then .device
    else .unc
  else .plain

section

variable (systemDrive : Short) (relative : List Short → Option (List Short))

/-- The rest of `__normdospath`, for a path that is drive-absolute, absolute or relative. What is
done with a relative path depends on the current directory and is left to `relative`. -/
def resolve (p : List Short) : Option (List Short) :=
  if (rewriteDrive p).head? = some slash then some (absolutePath systemDrive (rewriteDrive p))
  else relative p

def pathUnits (path : List Nat) : List Short :=
  (path.flatMap encodeUtf16).map fun c => if c = backslash then slash else c

/-- `__normdospath` of a path of valid UTF-8 without control codes, given by its code points;
`none` is any error. -/
def normDosPath (path : List Nat) : Option (List Short) :=
  if path = [] then none
  else if pathMax < (pathUnits path).length + 7 + 1 then none
  else
    match shapeOf (pathUnits path) with
    | .driveRelative => none
    | .native => some (toBackslash (pathUnits path))
    | .unc => some (toBackslash (pathUnits path))
    | .device => resolve systemDrive relative ((pathUnits path).drop 4)
    | .plain => resolve systemDrive relative (pathUnits path)

/-! ## `__mkntpathath` -/

def dropMagic (file : List Short) : List Short :=
  if file.length < 244 ∧ file.take 4 = magicPrefix ∧ isAlpha (file.getD 4 0) ∧
      file.getD 5 0 = colon then file.drop 4
  else file

def mkNtPath (isFile : List Short → Bool) (path : List Nat) : Option (List Short) :=
  match normDosPath systemDrive relative path with
  | none => none
  | some long =>
    if (dropMagic long).getLast? = some space ∨ (dropMagic long).getLast? = some dot then none
    else if (path.getLast? = some 47 ∨ path.getLast? = some 92) ∧ isFile (dropMagic long) then none
    else some (dropMagic long)

end

/-! ## The meaning of a path -/

abbrev Component := List Short

def pushComponent (stack : List Component) (c : Component) : List Component :=
  if c = [] ∨ c = [dot] then stack
  else if c = [dot, dot] then stack.tail
  else c :: stack

def components (p : List Short) : List Component := p.splitOn slash

def normalized (p : List Short) : List Component :=
  ((components p).foldl pushComponent []).reverse

def normalPath (systemDrive : Short) (p : List Short) : List Short :=
  [(driveOf systemDrive p).1, colon, backslash] ++
    [backslash].intercalate (normalized (driveOf systemDrive p).2)

/-- Nothing stands at the root that the normalizer keeps: a `..` there follows an empty component
there, and an empty component there is followed by no name. -/
def CleanFrom : Bool → List Component → List Component → Prop
  | pending, stack, [] => pending = false ∨ stack = []
  | pending, stack, [c] =>
    if stack = [] ∧ c = [dot, dot] then pending = true
    else pending = false ∨ pushComponent stack c = []
  | pending, stack, c :: c' :: cs =>
    if stack = [] ∧ c = [dot, dot] then pending = true ∧ CleanFrom false [] (c' :: cs)
    else if stack = [] ∧ c = [] then CleanFrom true [] (c' :: cs)
    else CleanFrom pending (pushComponent stack c) (c' :: cs)

instance decidableCleanFrom :
    ∀ pending stack cs, Decidable (CleanFrom pending stack cs)
  | pending, stack, [] => inferInstanceAs (Decidable (pending = false ∨ stack = []))
  | pending, stack, [c] =>
    inferInstanceAs (Decidable (if stack = [] ∧ c = [dot, dot] then pending = true
      else pending = false ∨ pushComponent stack c = []))
  | pending, stack, c :: c' :: cs =>
    have := decidableCleanFrom false [] (c' :: cs)
    have := decidableCleanFrom true [] (c' :: cs)
    have := decidableCleanFrom pending (pushComponent stack c) (c' :: cs)
    inferInstanceAs (Decidable
      (if stack = [] ∧ c = [dot, dot] then pending = true ∧ CleanFrom false [] (c' :: cs)
      else if stack = [] ∧ c = [] then CleanFrom true [] (c' :: cs)
      else CleanFrom pending (pushComponent stack c) (c' :: cs)))

def Clean (p : List Short) : Prop := CleanFrom false [] (components p)

instance (p : List Short) : Decidable (Clean p) := decidableCleanFrom false [] (components p)

/-! ## The normalizer, component by component -/

/-- What the output says between two components: slashes and `..` kept at the root, and the names
after them, the last one first. -/
structure RootState where
  lead : Nat
  dots : Nat
  names : List Component

def written (cs : List Component) : List Short := cs.flatMap fun c => slash :: c.reverse

def RootState.kept (st : RootState) : List Component :=
  st.names ++ replicate st.dots [dot, dot]

def RootState.out (st : RootState) : List Short :=
  written st.kept ++ replicate st.lead slash

def RootState.step (st : RootState) (c : Component) : RootState :=
  if c = [] then
    if st.names = [] ∧ st.dots = 0 then { st with lead := min 2 (st.lead + 1) } else st
  else if c = [dot] then st
  else if c = [dot, dot] then
    if st.names ≠ [] then { st with names := st.names.tail }
    else if st.dots = 0 ∧ st.lead ≠ 0 then { st with lead := 0 }
    else { st with dots := st.dots + 1 }
  else { st with names := c :: st.names }

def RootState.after (st : RootState) (c : Component) : List Short × Bool :=
  if c = [] then (st.out, false)
  else if c = [dot] then (st.out, true)
  else if c = [dot, dot] then
    if st.names ≠ [] then (RootState.out { st with names := st.names.tail }, true)
    else if st.dots = 0 ∧ st.lead ≠ 0 then ([], true)
    else (dot :: dot :: st.out, false)
  else (c.reverse ++ st.out, false)

structure IsName (c : Component) : Prop where
  ne_nil : c ≠ []
  ne_dot : c ≠ [dot]
  ne_dots : c ≠ [dot, dot]
  no_slash : slash ∉ c

structure RootState.Ok (st : RootState) : Prop where
  lead : st.lead ≤ 2
  names : ∀ c ∈ st.names, IsName c

section

open RootState

variable {st : RootState} {c : Component} {cs : List Component} {p rest out : List Short}

theorem dot_ne_slash : dot ≠ slash := by decide

theorem written_cons (c : Component) (cs : List Component) :
    written (c :: cs) = slash :: (c.reverse ++ written cs) := by
  unfold written
  rw [flatMap_cons]
  rfl

theorem written_start (cs : List Component) (n : Nat) :
    written cs ++ replicate n slash = [] ∨
      (written cs ++ replicate n slash).head? = some slash := by
  cases cs with
  | nil =>
    cases n with
    | zero => exact Or.inl rfl
    | succ n => exact Or.inr rfl
  | cons c cs =>
    rw [written_cons]
    exact Or.inr rfl

theorem out_start (st : RootState) : st.out = [] ∨ st.out.head? = some slash :=
  written_start _ _

theorem RootState.Ok.step (h : st.Ok) (hc : slash ∉ c) : (st.step c).Ok := by
  unfold RootState.step
  split <;> rename_i hnil
  · split <;> rename_i hroot
    · exact ⟨Nat.min_le_left _ _, h.names⟩
    · exact h
  split <;> rename_i hdot
  · exact h
  split <;> rename_i hdots
  · split <;> rename_i hnames
    · exact ⟨h.lead, fun x hx => h.names x (mem_of_mem_tail hx)⟩
    split <;> rename_i hlead
    · exact ⟨Nat.zero_le _, h.names⟩
    · exact ⟨h.lead, h.names⟩
  · exact ⟨h.lead, List.forall_mem_cons.mpr ⟨⟨hnil, hdot, hdots, hc⟩, h.names⟩⟩

/-! ### Single shorts -/

theorem head_cons_ne {c d : Short} (hc : c ≠ d) : ¬ (c :: out).head? = some d :=
  fun h => hc (Option.some.inj h)

theorem eq_slash_of_start {c : Short} (h : c :: out = [] ∨ (c :: out).head? = some slash) : c = slash :=
  h.elim (fun h => absurd h (cons_ne_nil _ _)) Option.some.inj

theorem normLoop_copy {c : Short} (hhead : ¬ out.head? = some slash)
    (hdot : c = dot → out ≠ [] ∨ ¬ (rest = [] ∨ rest.head? = some slash)) :
    normLoop (c :: rest) false out = normLoop rest false (c :: out) := by
  rw [normLoop, if_neg fun h => hhead h.2.2, if_neg, if_neg fun h => hhead h.1]
  rintro ⟨hstart, hc, hrest⟩
  rcases hdot hc with hne | hno
  · rcases hstart with hnil | hslash
    · exact hne hnil
    · exact hhead hslash
  · exact hno hrest

theorem normLoop_name (x : List Short) (hx : slash ∉ x) (hne : out ≠ [])
    (hhead : ¬ out.head? = some slash) :
    normLoop (x ++ rest) false out = normLoop rest false (x.reverse ++ out) := by
  induction x generalizing out with
  | nil => rfl
  | cons c x ih =>
    have hc : c ≠ slash := fun h => hx (h ▸ mem_cons_self)
    rw [cons_append, normLoop_copy hhead fun _ => Or.inl hne,
      ih (fun h => hx (mem_cons_of_mem _ h)) (cons_ne_nil _ _) (head_cons_ne hc), reverse_cons,
      append_assoc]
    rfl

theorem normLoop_dot (hstart : out = [] ∨ out.head? = some slash)
    (hrest : rest = [] ∨ rest.head? = some slash) :
    normLoop (dot :: rest) false out = normLoop rest true out := by
  rw [normLoop, if_neg fun h => dot_ne_slash h.2.1, if_pos ⟨hstart, rfl, hrest⟩]

theorem normLoop_dots (hhead : out.head? = some slash)
    (hrest : rest = [] ∨ rest.head? = some slash) :
    normLoop (dot :: dot :: rest) false out =
      normLoop (dot :: rest) false (backUp (stripSlashes out)) := by
  rw [normLoop, if_neg fun h => dot_ne_slash h.2.1,
    if_neg fun h => dot_ne_slash (eq_slash_of_start h.2.2), if_pos ⟨hhead, rfl, rfl, hrest⟩]

/-! ### Taking off slashes and names -/

theorem stripSlashes_replicate (n : Nat) (out : List Short) :
    stripSlashes (replicate n slash ++ out) = stripSlashes out := by
  induction n with
  | zero => rfl
  | succ n ih =>
    rw [replicate_succ, cons_append]
    unfold stripSlashes at ih ⊢
    rw [dropWhile_cons_of_pos (by decide)]
    exact ih

theorem stripSlashes_of_head {c : Short} (hc : c ≠ slash) :
    stripSlashes (c :: out) = c :: out := by
  unfold stripSlashes
  rw [dropWhile_cons_of_neg]
  rw [decide_eq_true_eq]
  exact hc

theorem stripSlashes_slash : stripSlashes (slash :: out) = stripSlashes out := by
  unfold stripSlashes
  rw [dropWhile_cons_of_pos (by decide)]

theorem IsName.reverse_eq (h : IsName c) : ∃ x xs, c.reverse = x :: xs ∧ x ≠ slash ∧ slash ∉ xs := by
  cases hr : c.reverse with
  | nil => exact absurd (List.reverse_eq_nil_iff.mp hr) h.ne_nil
  | cons x xs =>
    have hmem : ∀ y, y ∈ x :: xs → y ≠ slash := by
      intro y hy hslash
      rw [← hr, mem_reverse, hslash] at hy
      exact h.no_slash hy
    exact ⟨x, xs, rfl, hmem x mem_cons_self, fun hs => hmem slash (mem_cons_of_mem _ hs) rfl⟩

theorem stripSlashes_name (h : IsName c) : stripSlashes (c.reverse ++ out) = c.reverse ++ out := by
  obtain ⟨x, xs, hr, hx, -⟩ := h.reverse_eq
  rw [hr, cons_append, stripSlashes_of_head hx]

theorem dropName_name (hc : slash ∉ c) (hstart : out = [] ∨ out.head? = some slash) :
    dropName (c.reverse ++ out) = out := by
  unfold dropName
  have hall : ∀ y ∈ c.reverse, (decide (¬ y = slash)) = true := by
    intro y hy
    rw [decide_eq_true_eq]
    rintro rfl
    exact hc (List.mem_reverse.mp hy)
  rw [dropWhile_append_of_pos hall]
  rcases hstart with rfl | hhead
  · rfl
  · cases out with
    | nil => cases hhead
    | cons y out =>
      rw [dropWhile_cons_of_neg]
      rw [decide_eq_true_eq, not_not]
      exact Option.some.inj hhead

theorem backUp_name (h : IsName c) (hstart : out = [] ∨ out.head? = some slash) :
    backUp (c.reverse ++ out) = out := by
  have hdrop := dropName_name h.no_slash hstart
  obtain ⟨x, xs, hr, hx, hxs⟩ := h.reverse_eq
  have hc : c = xs.reverse ++ [x] := by
    rw [← reverse_reverse c, hr, reverse_cons]
  unfold backUp
  rw [hdrop, hr, cons_append]
  by_cases hdot : x = dot
  · rw [if_pos (by rw [List.head?_cons, hdot]), tail_cons]
    cases xs with
    | nil => exact absurd (by rw [hc, hdot]; rfl) h.ne_dot
    | cons y ys =>
      have hy : y ≠ slash := fun hy => hxs (hy ▸ mem_cons_self)
      rw [if_neg, if_neg]
      · exact fun hno => hy (eq_slash_of_start hno)
      · rintro ⟨hyd, hnext⟩
        have hyd' : y = dot := Option.some.inj hyd
        rw [cons_append, tail_cons] at hnext
        cases ys with
        | nil =>
          refine absurd ?_ h.ne_dots
          rw [hc, hdot, hyd']
          rfl
        | cons z zs => exact hxs (mem_cons_of_mem _ (eq_slash_of_start hnext ▸ mem_cons_self))
  · rw [if_neg (head_cons_ne hdot)]

theorem backUp_dots (hstart : out = [] ∨ out.head? = some slash) :
    backUp (dot :: dot :: out) = dot :: slash :: dot :: dot :: out := by
  unfold backUp
  exact (if_pos rfl).trans (if_pos ⟨rfl, hstart⟩)

/-! ### Whole components -/

theorem RootState.out_root (hnames : st.names = []) (hdots : st.dots = 0) (n : Nat) :
    RootState.out { st with lead := n } = replicate n slash := by
  unfold RootState.out kept
  rw [hnames, hdots]
  rfl

theorem RootState.out_dots (hnames : st.names = []) :
    RootState.out { st with dots := st.dots + 1 } = slash :: dot :: dot :: st.out := by
  unfold RootState.out kept
  rw [hnames, nil_append, nil_append, replicate_succ, written_cons]
  rfl

theorem RootState.out_names (st : RootState) (c : Component) :
    RootState.out { st with names := c :: st.names } = slash :: (c.reverse ++ st.out) := by
  unfold RootState.out kept
  rw [cons_append, written_cons, cons_append, append_assoc]

theorem normLoop_component (h : st.Ok) (hc : slash ∉ c)
    (hrest : rest = [] ∨ rest.head? = some slash) :
    normLoop (c ++ rest) false st.out = normLoop rest (st.after c).2 (st.after c).1 := by
  unfold RootState.after
  split <;> rename_i hnil
  · rw [hnil]
    rfl
  split <;> rename_i hdot
  · rw [hdot]
    exact normLoop_dot (out_start st) hrest
  by_cases hdots : c = [dot, dot]
  · rw [if_pos hdots, hdots]
    obtain ⟨lead, dots, names⟩ := st
    cases names with
    | cons n ns =>
      have hname : IsName n := h.names n mem_cons_self
      have hstart := out_start ⟨lead, dots, ns⟩
      show normLoop (dot :: dot :: rest) false _ = _
      rw [if_pos (cons_ne_nil n ns), out_names ⟨lead, dots, ns⟩ n, normLoop_dots rfl hrest, stripSlashes_slash,
        stripSlashes_name hname, backUp_name hname hstart]
      exact normLoop_dot hstart hrest
    | nil =>
      rw [if_neg (not_not_intro rfl)]
      cases dots with
      | zero =>
        show normLoop (dot :: dot :: rest) false (replicate lead slash) = _
        cases lead with
        | zero =>
          show normLoop (dot :: dot :: rest) false [] = _
          rw [if_neg fun h => h.2 rfl,
            normLoop_copy (by simp) fun _ => Or.inr fun h => dot_ne_slash (eq_slash_of_start h),
            normLoop_copy (head_cons_ne dot_ne_slash) fun _ => Or.inl (cons_ne_nil _ _)]
          rfl
        | succ n =>
          have hstrip : backUp (stripSlashes (replicate (n + 1) slash)) = [] := by
            rw [← append_nil (replicate (n + 1) slash), stripSlashes_replicate]
            rfl
          rw [if_pos ⟨rfl, Nat.succ_ne_zero n⟩, normLoop_dots rfl hrest, hstrip]
          exact normLoop_dot (Or.inl rfl) hrest
      | succ d =>
        show normLoop (dot :: dot :: rest) false _ = _
        rw [if_neg fun h => Nat.succ_ne_zero d h.1, @out_dots ⟨lead, d, []⟩ rfl, normLoop_dots rfl hrest,
          stripSlashes_slash, stripSlashes_of_head dot_ne_slash, backUp_dots (out_start _),
          normLoop_copy (head_cons_ne dot_ne_slash) fun _ => Or.inl (cons_ne_nil _ _)]
  · -- a name: its first short comes after a slash or at the start
    rw [if_neg hdots]
    obtain ⟨x, xs, rfl⟩ := exists_cons_of_ne_nil hnil
    have hx : x ≠ slash := fun h => hc (h ▸ mem_cons_self)
    have hfirst : normLoop (x :: (xs ++ rest)) false st.out =
        normLoop (xs ++ rest) false (x :: st.out) := by
      have hnotDot : x = dot → ¬ (xs ++ rest = [] ∨ (xs ++ rest).head? = some slash) := by
        rintro rfl hno
        cases xs with
        | nil => exact hdot rfl
        | cons y ys => exact hc (mem_cons_of_mem _ (eq_slash_of_start hno ▸ mem_cons_self))
      rw [normLoop, if_neg fun h => hx h.2.1, if_neg fun h => hnotDot h.2.1 h.2.2, if_neg]
      rintro ⟨-, rfl, hsecond, hthird⟩
      cases xs with
      | nil =>
        rcases hrest with rfl | hrest
        · cases hsecond
        · rw [nil_append] at hsecond
          rw [hrest] at hsecond
          exact dot_ne_slash (Option.some.inj hsecond).symm
      | cons y ys =>
        have hy : y = dot := Option.some.inj hsecond
        cases ys with
        | nil => exact hdots (by rw [hy])
        | cons z zs =>
          exact hc (mem_cons_of_mem _ (mem_cons_of_mem _ (eq_slash_of_start hthird ▸ mem_cons_self)))
    rw [cons_append, hfirst, normLoop_name xs (fun h => hc (mem_cons_of_mem _ h)) (cons_ne_nil _ _)
      (head_cons_ne hx), reverse_cons, append_assoc]
    rfl

theorem normLoop_slash (h : st.Ok) (hc : slash ∉ c) :
    normLoop (slash :: rest) (st.after c).2 (st.after c).1 = normLoop rest false (st.step c).out := by
  have hcopy : ∀ {o : List Short}, ¬ o.head? = some slash →
      normLoop (slash :: rest) false o = normLoop rest false (slash :: o) :=
    fun ho => normLoop_copy ho fun hno => absurd hno.symm dot_ne_slash
  unfold RootState.after step
  split_ifs with hnil hroot hdot hdots hnames hlead
  · -- at the root two slashes are kept
    have hst : st.out = replicate st.lead slash := out_root hroot.1 hroot.2 st.lead
    rw [hst, out_root hroot.1 hroot.2]
    have hlead := h.lead
    obtain hl | hl | hl : st.lead = 0 ∨ st.lead = 1 ∨ st.lead = 2 := by omega
    all_goals
      rw [hl]
      rfl
  · obtain ⟨y, ys, hout⟩ : ∃ y ys, st.out = slash :: y :: ys := by
      obtain ⟨lead, dots, names⟩ := st
      cases names with
      | cons n ns =>
        obtain ⟨x, xs, hr, -⟩ := (h.names n mem_cons_self).reverse_eq
        exact ⟨x, _, by rw [out_names ⟨lead, dots, ns⟩ n, hr]; rfl⟩
      | nil =>
        cases dots with
        | zero => exact absurd ⟨rfl, rfl⟩ hroot
        | succ d => exact ⟨dot, _, @out_dots ⟨lead, d, []⟩ rfl⟩
    have hlen : 1 < st.out.length := by
      rw [hout, length_cons, length_cons]
      omega
    have hhead : st.out.head? = some slash := by
      rw [hout]
      rfl
    rw [normLoop, if_pos ⟨hlen, rfl, hhead⟩]
  · rfl
  · rfl
  · rw [out_root (not_not.mp hnames) hlead.1]
    rfl
  · rw [out_dots (not_not.mp hnames)]
    exact hcopy (head_cons_ne dot_ne_slash)
  · have hname : IsName c := ⟨hnil, hdot, hdots, hc⟩
    obtain ⟨x, xs, hr, hx, -⟩ := hname.reverse_eq
    rw [out_names, hr]
    exact hcopy (head_cons_ne hx)

def RootState.stepEnd (st : RootState) (c : Component) : RootState :=
  if c = [] then st else st.step c

theorem strip_after (st : RootState) (c : Component) :
    stripSlashes (st.after c).1 = stripSlashes (st.stepEnd c).out := by
  unfold RootState.after stepEnd step
  split_ifs with hnil hdot hdots hnames hlead
  · rfl
  · rfl
  · rfl
  · rw [out_root (not_not.mp hnames) hlead.1]
    rfl
  · rw [out_dots (not_not.mp hnames), stripSlashes_slash]
  · rw [out_names, stripSlashes_slash]

def RootState.finish : RootState → List Component → RootState
  | st, [] => st
  | st, [c] => st.stepEnd c
  | st, c :: c' :: cs => (st.step c).finish (c' :: cs)

theorem normLoop_intercalate (h : st.Ok) (hne : cs ≠ []) (hcs : ∀ c ∈ cs, slash ∉ c) :
    stripSlashes (normLoop ([slash].intercalate cs) false st.out) =
      stripSlashes (st.finish cs).out := by
  induction cs generalizing st with
  | nil => exact absurd rfl hne
  | cons c cs ih =>
    have hc := hcs c mem_cons_self
    cases cs with
    | nil =>
      rw [intercalate_singleton, ← append_nil c, normLoop_component h hc (Or.inl rfl),
        append_nil]
      show stripSlashes (st.after c).1 = stripSlashes (st.stepEnd c).out
      exact strip_after st c
    | cons c' cs =>
      rw [intercalate_cons_cons, append_assoc, singleton_append,
        normLoop_component h hc (Or.inr rfl), normLoop_slash h hc]
      exact ih (h.step hc) (cons_ne_nil _ _) fun x hx => hcs x (mem_cons_of_mem _ hx)

theorem no_slash_components (p : List Short) : ∀ c ∈ components p, slash ∉ c := by
  unfold components
  induction p with
  | nil =>
    intro c hc
    rw [splitOn_nil, mem_singleton] at hc
    rw [hc]
    exact not_mem_nil
  | cons x p ih =>
    rw [splitOn_cons_eq_if_modifyHead]
    split_ifs with hx
    · exact List.forall_mem_cons.mpr ⟨not_mem_nil, ih⟩
    · obtain ⟨y, ys, hy⟩ := exists_cons_of_ne_nil (splitOn_ne_nil slash p)
      rw [hy] at ih ⊢
      have hyok := ih y mem_cons_self
      rw [modifyHead_cons]
      refine List.forall_mem_cons.mpr ⟨?_, fun c hc => ih c (mem_cons_of_mem _ hc)⟩
      intro hmem
      rcases List.mem_cons.mp hmem with hs | hs
      · exact hx (beq_iff_eq.mpr hs.symm)
      · exact hyok hs

def rootStart : RootState where
  lead := 0
  dots := 0
  names := []

theorem ok_rootStart : rootStart.Ok := ⟨Nat.zero_le _, fun _ h => absurd h not_mem_nil⟩

theorem normUnixPath_eq (p : List Short) :
    normUnixPath p = (stripSlashes (rootStart.finish (components p)).out).reverse := by
  have hrun := normLoop_intercalate ok_rootStart (splitOn_ne_nil slash p)
    (no_slash_components p)
  rw [intercalate_splitOn] at hrun
  unfold normUnixPath
  exact congrArg List.reverse hrun

end

end CosmoRuby.Windows.NtPath