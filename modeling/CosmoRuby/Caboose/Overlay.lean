import CosmoRuby.Caboose.Disk

/-!
# The two backends

The user edits a tree. With the userland backend they edit a full copy of `/zip`; with the kernel
backend an overlay file system keeps the differences to a lower layer in an upper one, with a
special file (a whiteout) for what was deleted and a marked directory for one that hides what the
lower layer has. Both show the user the same tree. What `Persist` stages from the upper layer is
another matter: the whiteouts are skipped by the copy.
-/

namespace CosmoRuby.Caboose

open Lib OverlayBackend List

/-! ## Edits -/

inductive EditOp where
  | write (content : Bytes)
  | mkdir
  | unlink
  | rmdir
  deriving DecidableEq, Repr

structure Edit where
  dir : List Name
  name : Name
  op : EditOp
  deriving DecidableEq, Repr

def EditOp.change : EditOp → Change Name Bytes
  | .write b => creat b
  | .mkdir => Caboose.mkdir
  | .unlink => Caboose.unlink
  | .rmdir => Caboose.rmdir

def Edit.apply (t : Node) (e : Edit) : Node :=
  match onEntry e.op.change e.dir e.name t with
  | .ok t' => t'
  | .error _ => t

/-! ## The overlay -/

/-- What an overlay shows at a path below the entries `lo` of the lower and `up` of the upper
layer. -/
def view : Option Node → Option Node → List Name → Option (Leaf Bytes)
  | lo, none, p => look lo p
  | _, some .special, _ => none
  | _, some (.file b), [] => some (.file b)
  | _, some (.file _), _ :: _ => none
  | _, some (.dir _ _), [] => some .dir
  | lo, some (.dir mark es), n :: p =>
    view (if mark then none else lo.bind (·.child n)) (es.lookup n) p

def whiteout (lo : Option Node) : Option Node := if lo.isSome then some .special else none

def emptyMerged (lo : Option Node) : Option Node → Bool
  | some (.dir mark es) =>
    es.all (fun e => e.2.leaf = .special) &&
      (mark || (lo.elim [] FileTree.entries).all fun e => (es.lookup e.1).isSome)
  | none => (lo.elim [] FileTree.entries).isEmpty
  | _ => false

def upperChange (op : EditOp) (lo up : Option Node) : Except Errno (Option Node) :=
  match op, view lo up [] with
  | .write b, none => .ok (some (.file b))
  | .write b, some (.file _) => .ok (some (.file b))
  | .write _, some .dir => .error .isdir
  | .write _, some .special => .error .loop
  | .mkdir, none => .ok (some (.dir lo.isSome []))
  | .mkdir, some _ => .error .exist
  | .unlink, none => .error .noent
  | .unlink, some .dir => .error .isdir
  | .unlink, some _ => .ok (whiteout lo)
  | .rmdir, none => .error .noent
  | .rmdir, some .dir => if emptyMerged lo up then .ok (whiteout lo) else .error .notempty
  | .rmdir, some _ => .error .notdir

/-- An operation in the directory `p` of the overlay. The directories on the way are made in the
upper layer where only the lower has them. -/
def onUpper (op : EditOp) : List Name → Name → Option Node → Node → Except Errno Node
  | [], n, lo, .dir mark es =>
    match upperChange op (if mark then none else lo.bind (·.child n)) (es.lookup n) with
    | .error e => .error e
    | .ok none => .ok (.dir mark (dropEntry n es))
    | .ok (some c) => .ok (.dir mark (setEntry n c es))
  | m :: p, n, lo, .dir mark es =>
    match view (if mark then none else lo.bind (·.child m)) (es.lookup m) [] with
    | none => .error .noent
    | some .dir =>
      match onUpper op p n (if mark then none else lo.bind (·.child m))
          ((es.lookup m).getD (.dir false [])) with
      | .error e => .error e
      | .ok c => .ok (.dir mark (setEntry m c es))
    | some _ => .error .notdir
  | _, _, _, _ => .error .notdir

def Edit.applyUpper (lower : Node) (up : Node) (e : Edit) : Node :=
  match onUpper e.op e.dir e.name (some lower) up with
  | .ok up' => up'
  | .error _ => up

/-! ## Staging -/

/-- A directory is made unless it is there, and the loader is copied to `ape` in it. -/
def putApe (loader : Bytes) : Change Name Bytes
  | none => .ok (some (.dir false [("ape", .file loader)]))
  | some bin => (onEntry (creat loader) [] "ape" bin).map some

/-- `CopyApeLoader`: `/usr/bin/ape` of the host, if it has one, is added to the lower layer. -/
def copyApeLoader (loader : Option Bytes) (lower : Node) : Except Errno Node :=
  match loader with
  | none => .ok lower
  | some b => onEntry (putApe b) ["usr"] "bin" lower

def stage (backend : OverlayBackend) (zip upper : Option Node) : Except Errno Node :=
  if backend = kOverlayUserland then copyDirectoryRecursive upper (some (.dir false []))
  else
    match copyDirectoryRecursive zip (some (.dir false [])) with
    | .error e => .error e
    | .ok staging => copyDirectoryRecursive upper (some staging)

/-! ## The overlay shows what a plain tree would -/

variable {t t' lo up r : Option Node} {c : Node} {op : EditOp} {p : List Name} {n m : Name}

def Agree (t lo up : Option Node) : Prop := ∀ p, look t p = view lo up p

theorem view_none (lo : Option Node) (p : List Name) : view lo none p = look lo p := by
  cases p <;> rfl

theorem view_special (lo : Option Node) (p : List Name) : view lo (some .special) p = none := by
  cases p <;> rfl

theorem view_file (lo : Option Node) (b : Bytes) (p : List Name) :
    view lo (some (.file b)) p = look (some (.file b)) p := by
  cases p with
  | nil => rfl
  | cons n p =>
    rw [look_some_cons, child_file, look_none]
    rfl

variable {ts es : List (Name × Node)} {mark mark' : Bool}

theorem Agree.child (h : Agree (some (.dir mark' ts)) lo (some (.dir mark es))) (n : Name) :
    Agree (ts.lookup n) (if mark then none else lo.bind (·.child n)) (es.lookup n) :=
  fun p => h (n :: p)

theorem agree_dir
    (h : ∀ n, Agree (ts.lookup n) (if mark then none else lo.bind (·.child n)) (es.lookup n)) :
    Agree (some (.dir mark' ts)) lo (some (.dir mark es)) := by
  intro p
  cases p with
  | nil => rfl
  | cons n p => exact h n p

theorem agree_whiteout (lo : Option Node) : Agree none lo (whiteout lo) := by
  intro p
  unfold whiteout
  split_ifs with hlo
  · rw [view_special, look_none]
  · have hnone : lo = none := Option.not_isSome_iff_eq_none.mp hlo
    rw [hnone, view_none]

theorem agree_newDir (lo : Option Node) :
    Agree (some (.dir false [])) lo (some (.dir lo.isSome [])) := by
  apply agree_dir
  intro n p
  cases lo with
  | none =>
    have hbelow : (if (none : Option Node).isSome then none
        else (none : Option Node).bind (·.child n)) = none := rfl
    rw [hbelow, lookup_nil, view_none]
  | some l =>
    rw [Option.isSome_some, if_pos rfl, lookup_nil, view_none]

theorem Agree.copyUp (h : Agree t lo none) (hdir : look t [] = some .dir) :
    Agree t lo (some (.dir false [])) := by
  intro p
  cases p with
  | nil => exact hdir
  | cons n p =>
    have hstep : view lo (some (.dir false [])) (n :: p) = view (lo.bind (·.child n)) none p := rfl
    rw [hstep, view_none, h (n :: p), view_none, look_cons]

theorem entries_eq_nil (mark : Bool) (ts : List (Name × Node)) :
    ts = [] ↔ ∀ n, look (some (.dir mark ts)) [n] = none := by
  constructor
  · intro h n
    rw [h]
    rfl
  · intro h
    cases ts with
    | nil => rfl
    | cons e ts =>
      have hfirst := h e.1
      rw [look_some_cons, child_dir, lookup_cons, beq_self_eq_true] at hfirst
      nomatch hfirst

variable {e : Name × Node}

theorem lookup_of_mem_nodup
    (hnodup : (es.map Prod.fst).Nodup) (he : e ∈ es) : es.lookup e.1 = some e.2 := by
  induction es with
  | nil => nomatch he
  | cons g es ih =>
    obtain ⟨hfresh, htail⟩ := List.nodup_cons.mp hnodup
    cases List.mem_cons.mp he with
    | inl heq => rw [heq, lookup_cons, beq_self_eq_true]
    | inr hmem =>
      have hne : e.1 ≠ g.1 := by
        intro heq
        exact hfresh (List.mem_map.mpr ⟨e, hmem, heq⟩)
      rw [lookup_cons, beq_eq_false_iff_ne.mpr hne]
      exact ih htail hmem

theorem exists_mem_of_lookup (h : es.lookup n = some c) : (n, c) ∈ es := by
  obtain ⟨l₁, l₂, rfl, -⟩ := List.lookup_eq_some_iff.mp h
  exact List.mem_append_right _ mem_cons_self

theorem emptyMerged_iff (hwf : Wf up) (hdir : view lo up [] = some .dir) :
    emptyMerged lo up = true ↔ ∀ n, view lo up [n] = none := by
  cases up with
  | none =>
    rw [view_none] at hdir
    cases lo with
    | none => cases hdir
    | some l =>
      cases l with
      | file b | special => cases hdir
      | dir mark ls =>
        change ls.isEmpty = true ↔ ∀ n, look (some (.dir mark ls)) [n] = none
        rw [List.isEmpty_iff, entries_eq_nil mark]
  | some u =>
    cases u with
    | file b | special => cases hdir
    | dir mark es =>
      have hview : ∀ n, view lo (some (.dir mark es)) [n] =
          view (if mark then none else lo.bind (·.child n)) (es.lookup n) [] := fun n => rfl
      have hnodup : (es.map Prod.fst).Nodup := hwf [] _ rfl
      unfold emptyMerged
      rw [Bool.and_eq_true, all_eq_true, Bool.or_eq_true, all_eq_true]
      constructor
      · rintro ⟨hspecial, hlower⟩ n
        rw [hview]
        cases hn : es.lookup n with
        | some c =>
          have hc := hspecial (n, c) (exists_mem_of_lookup hn)
          cases c with
          | special => exact view_special _ []
          | file b | dir mark' es' => exact absurd (of_decide_eq_true hc) (fun h => by cases h)
        | none =>
          rw [view_none]
          cases hlower with
          | inl hmark => rw [if_pos hmark]; rfl
          | inr hnames =>
            -- a name of the lower layer has a whiteout
            cases hl : lo.bind (·.child n) with
            | none => split_ifs <;> rfl
            | some l =>
              obtain ⟨l', hlo, hchild⟩ := Option.bind_eq_some_iff.mp hl
              have hsome := hnames (n, l) (by rw [hlo]; exact exists_mem_of_lookup hchild)
              rw [hn] at hsome
              cases hsome
      · intro hnone
        refine ⟨?_, ?_⟩
        · intro e he
          have hshown := hnone e.1
          rw [hview, lookup_of_mem_nodup hnodup he] at hshown
          apply decide_eq_true
          cases hc : e.2 with
          | special => rfl
          | file b | dir mark' es' => rw [hc] at hshown; cases hshown
        · by_cases hmark : mark = true
          · exact Or.inl hmark
          · refine Or.inr ?_
            intro e he
            by_contra hno
            have hlookup := Option.not_isSome_iff_eq_none.mp hno
            have hshown := hnone e.1
            rw [hview, hlookup, view_none, if_neg hmark] at hshown
            cases lo with
            | none => cases he
            | some l =>
              have hsome : (l.entries.lookup e.1).isSome = true :=
                lookup_isSome_iff.mpr ⟨e, he, beq_self_eq_true e.1⟩
              rw [Option.bind_some] at hshown
              unfold FileTree.child at hshown
              cases hl : l.entries.lookup e.1 with
              | none => rw [hl] at hsome; cases hsome
              | some d => rw [hl] at hshown; cases hshown

def Matches {α β : Type} (R : α → β → Prop) : Except Errno α → Except Errno β → Prop
  | .ok a, .ok b => R a b
  | .error _, .error _ => True
  | _, _ => False

theorem Matches.cases {α β : Type} {R : α → β → Prop} {x : Except Errno α} {y : Except Errno β}
    (h : Matches R x y) : (∃ e e', x = .error e ∧ y = .error e') ∨ ∃ a b, x = .ok a ∧ y = .ok b ∧ R a b := by
  cases x with
  | error e =>
    cases y with
    | error e' => exact Or.inl ⟨e, e', rfl, rfl⟩
    | ok b => exact h.elim
  | ok a =>
    cases y with
    | error e' => exact h.elim
    | ok b => exact Or.inr ⟨a, b, rfl, rfl, h⟩

theorem upperChange_matches (op : EditOp) (hwf : Wf up) (h : Agree t lo up) :
    Matches (fun r r' => Agree r lo r') (op.change t) (upperChange op lo up) := by
  have hhere := h []
  unfold upperChange
  rw [← hhere]
  cases op with
  | write b =>
    cases t with
    | none => exact fun p => (view_file lo b p).symm
    | some c =>
      cases c with
      | file b' => exact fun p => (view_file lo b p).symm
      | special => trivial
      | dir mark ts => trivial
  | mkdir =>
    cases t with
    | none => exact agree_newDir lo
    | some c => trivial
  | unlink =>
    cases t with
    | none => trivial
    | some c =>
      cases c with
      | file b | special => exact agree_whiteout lo
      | dir mark ts => trivial
  | rmdir =>
    cases t with
    | none => trivial
    | some c =>
      cases c with
      | file b => trivial
      | special => trivial
      | dir mark ts =>
        -- the directory is empty in the tree just if the overlay shows it so
        have hempty : emptyMerged lo up = true ↔ ts = [] := by
          rw [emptyMerged_iff hwf hhere.symm, entries_eq_nil mark]
          constructor
          · intro hnone n
            rw [h [n]]
            exact hnone n
          · intro hnone n
            rw [← h [n]]
            exact hnone n
        cases ts with
        | nil =>
          rw [look_some_nil]
          change Matches _ (.ok none) (if emptyMerged lo up = true then _ else _)
          rw [if_pos (hempty.mpr rfl)]
          exact agree_whiteout lo
        | cons e ts =>
          rw [look_some_nil]
          change Matches _ (.error .notempty) (if emptyMerged lo up = true then _ else _)
          rw [if_neg fun hyes => cons_ne_nil e ts (hempty.mp hyes)]
          trivial

theorem onEntry_notDir {f : Change Name Bytes} (h : c.leaf ≠ .dir) :
    onEntry f p n c = .error .notdir := by
  cases c with
  | dir mark es => exact absurd rfl h
  | file b | special => cases p <;> rfl

theorem agree_update {ts' es' : List (Name × Node)} {r r' : Option Node}
    (h : Agree (some (.dir mark' ts)) lo (some (.dir mark es)))
    (hr : Agree r (if mark then none else lo.bind (·.child n)) r')
    (hts : ts'.lookup n = r ∧ ∀ k, k ≠ n → ts'.lookup k = ts.lookup k)
    (hes : es'.lookup n = r' ∧ ∀ k, k ≠ n → es'.lookup k = es.lookup k) :
    Agree (some (.dir mark' ts')) lo (some (.dir mark es')) := by
  apply agree_dir
  intro k
  by_cases hk : k = n
  · rw [hk, hts.1, hes.1]
    exact hr
  · rw [hts.2 k hk, hes.2 k hk]
    exact h.child k

theorem lookup_set (n : Name) (c : Node) (es : List (Name × Node)) :
    (setEntry n c es).lookup n = some c ∧ ∀ k, k ≠ n → (setEntry n c es).lookup k = es.lookup k :=
  ⟨lookup_setEntry_self n c es, fun _ hk => lookup_setEntry_ne hk c es⟩

theorem lookup_drop (n : Name) (es : List (Name × Node)) :
    (dropEntry n es).lookup n = none ∧ ∀ k, k ≠ n → (dropEntry n es).lookup k = es.lookup k :=
  ⟨lookup_dropEntry_self n es, fun _ hk => lookup_dropEntry_ne hk es⟩

theorem onUpper_matches_here (op : EditOp) (n : Name)
    (hwf : Wf (some (.dir mark es))) (h : Agree (some (.dir mark' ts)) lo (some (.dir mark es))) :
    Matches (fun t' u' => Agree (some t') lo (some u')) (onEntry op.change [] n (.dir mark' ts))
      (onUpper op [] n lo (.dir mark es)) := by
  have hentry := upperChange_matches op (hwf.child n) (h.child n)
  rw [child_dir] at hentry
  rw [onEntry, onUpper]
  rcases hentry.cases with ⟨e, e', hr, hr'⟩ | ⟨r, r', hr, hr', hagree⟩
  · rw [hr, hr']
    trivial
  · rw [hr, hr']
    cases r with
    | none =>
      cases r' with
      | none => exact agree_update h hagree (lookup_drop n ts) (lookup_drop n es)
      | some c' => exact agree_update h hagree (lookup_drop n ts) (lookup_set n c' es)
    | some c =>
      cases r' with
      | none => exact agree_update h hagree (lookup_set n c ts) (lookup_drop n es)
      | some c' => exact agree_update h hagree (lookup_set n c ts) (lookup_set n c' es)

theorem agree_getD {t : Option Node} (h : Agree t lo up) (hdir : look t [] = some .dir) :
    Agree t lo (some (up.getD (.dir false []))) := by
  cases up with
  | none => exact h.copyUp hdir
  | some u => exact h

theorem wf_getD (hwf : Wf up) : Wf (some (up.getD (.dir false []))) := by
  cases up with
  | none => exact wf_emptyDir false
  | some u => exact hwf

variable {u u' base : Node}

theorem onUpper_matches (op : EditOp) (p : List Name) (n : Name) {t : Node} (hwf : Wf (some u))
    (hu : u.leaf = .dir) (h : Agree (some t) lo (some u)) :
    Matches (fun t' u' => Agree (some t') lo (some u')) (onEntry op.change p n t)
      (onUpper op p n lo u) := by
  obtain ⟨mark, es, rfl⟩ := exists_dir hu
  have ht : t.leaf = .dir := Option.some.inj (h [])
  obtain ⟨mark', ts, rfl⟩ := exists_dir ht
  induction p generalizing lo mark es mark' ts with
  | nil => exact onUpper_matches_here op n hwf h
  | cons m p ih =>
    have hchild := h.child m
    have hhere := hchild []
    rw [onEntry, onUpper, ← hhere]
    cases hc : ts.lookup m with
    | none => trivial
    | some c =>
      rw [hc] at hchild hhere
      by_cases hleaf : c.leaf = .dir
      · -- both walk on
        have hdir : look (some c) [] = some .dir := congrArg some hleaf
        have hagree := agree_getD hchild hdir
        have hnext : Wf (some ((es.lookup m).getD (.dir false []))) := wf_getD (hwf.child m)
        have hup : ((es.lookup m).getD (.dir false [])).leaf = .dir := by
          have hshown := hagree []
          rw [hdir] at hshown
          cases hl : (es.lookup m).getD (.dir false []) with
          | dir mark es => rfl
          | file b | special => rw [hl] at hshown; cases hshown
        obtain ⟨umark, us, hus⟩ := exists_dir hup
        obtain ⟨cmark, cs, rfl⟩ := exists_dir hleaf
        rw [hus] at hagree hnext
        have hrec := ih umark us hnext rfl cmark cs hagree rfl
        rw [look_some_nil, hleaf]
        dsimp only
        rw [hus]
        rcases hrec.cases with ⟨e, e', hr, hr'⟩ | ⟨t', u', hr, hr', hnew⟩
        · rw [hr, hr']
          trivial
        · rw [hr, hr']
          exact agree_update h hnew (lookup_set m t' ts) (lookup_set m u' es)
      · rw [look_some_nil]
        dsimp only
        rw [onEntry_notDir hleaf]
        cases hl : c.leaf with
        | dir => exact absurd hl hleaf
        | file b => trivial
        | special => trivial

theorem wf_upperChange {lo up r : Option Node} (h : upperChange op lo up = .ok r) : Wf r := by
  have hwhite : Wf (whiteout lo) := by
    unfold whiteout
    split_ifs
    · exact wf_special
    · exact wf_none
  unfold upperChange at h
  split at h
  · cases h; exact wf_file _
  · cases h; exact wf_file _
  · cases h
  · cases h
  · cases h; exact wf_emptyDir _
  · cases h
  · cases h
  · cases h
  · cases h; exact hwhite
  · cases h
  · split_ifs at h
    cases h
    exact hwhite
  · cases h

theorem wf_onUpper (hwf : Wf (some u)) (h : onUpper op p n lo u = .ok u') : Wf (some u') := by
  induction p generalizing lo u u' with
  | nil =>
    cases u with
    | file b | special => cases h
    | dir mark es =>
      rw [onUpper] at h
      cases hr : upperChange op (if mark then none else lo.bind (·.child n)) (es.lookup n) with
      | error e => rw [hr] at h; cases h
      | ok r =>
        rw [hr] at h
        have hnew := wf_upperChange hr
        cases r with
        | none => cases h; exact wf_dropEntry n hwf
        | some c => cases h; exact wf_setEntry n hwf hnew
  | cons m p ih =>
    cases u with
    | file b | special => cases h
    | dir mark es =>
      rw [onUpper] at h
      split at h
      · cases h
      · cases hr : onUpper op p n (if mark then none else lo.bind (·.child m))
            ((es.lookup m).getD (.dir false [])) with
        | error e => rw [hr] at h; cases h
        | ok c =>
          rw [hr] at h
          cases h
          exact wf_setEntry m hwf (ih (wf_getD (hwf.child m)) hr)
      · cases h

/-! ## Sequences of edits -/

theorem wf_change (op : EditOp) {t r : Option Node} (h : op.change t = .ok r) : Wf r := by
  cases op with
  | write b =>
    rw [creat_eq h]
    exact wf_file b
  | mkdir =>
    rw [(mkdir_eq h).2]
    exact wf_emptyDir false
  | unlink =>
    rw [unlink_eq h]
    exact wf_none
  | rmdir =>
    rw [rmdir_eq h]
    exact wf_none

/-- The tree of the user and the upper layer, after the same edits of the same base. -/
structure Edited (base t u : Node) : Prop where
  agree : Agree (some t) (some base) (some u)
  wf : Wf (some t)
  wfUpper : Wf (some u)

theorem Edited.dirs {t : Node} (h : Edited base t u) (hu : u.leaf = .dir) : t.leaf = .dir := by
  have hhere := h.agree []
  obtain ⟨mark, es, rfl⟩ := exists_dir hu
  exact Option.some.inj hhere

theorem onUpper_leaf (h : onUpper op p n lo u = .ok u') : u'.leaf = .dir := by
  cases u with
  | file b | special => cases p <;> nomatch h
  | dir mark es =>
    cases p with
    | nil =>
      rw [onUpper] at h
      split at h
      · nomatch h
      · cases h; rfl
      · cases h; rfl
    | cons m p =>
      rw [onUpper] at h
      split at h
      · nomatch h
      · split at h
        · nomatch h
        · cases h; rfl
      · nomatch h

theorem Edited.step {t : Node} (h : Edited base t u) (hu : u.leaf = .dir) (e : Edit) :
    Edited base (e.apply t) (e.applyUpper base u) ∧ (e.applyUpper base u).leaf = .dir := by
  have hmatch := onUpper_matches e.op e.dir e.name h.wfUpper hu h.agree
  unfold Edit.apply Edit.applyUpper
  rcases hmatch.cases with ⟨e₁, e₂, ht, hup⟩ | ⟨t', u', ht, hup, hagree⟩
  · rw [ht, hup]
    exact ⟨h, hu⟩
  · rw [ht, hup]
    have hwf : Wf (some t') := onEntry_wf (fun t r _ hr => wf_change e.op hr) h.wf ht
    exact ⟨⟨hagree, hwf, wf_onUpper h.wfUpper hup⟩, onUpper_leaf hup⟩

theorem edited_start (hwf : Wf (some base)) (hdir : base.leaf = .dir) :
    Edited base base (.dir false []) := by
  refine ⟨?_, hwf, wf_emptyDir false⟩
  apply Agree.copyUp
  · intro p
    rw [view_none]
  · exact congrArg some hdir

theorem edited_all (hwf : Wf (some base)) (hdir : base.leaf = .dir) (edits : List Edit) :
    Edited base (edits.foldl Edit.apply base)
        (edits.foldl (Edit.applyUpper base) (.dir false [])) ∧
      (edits.foldl (Edit.applyUpper base) (.dir false [])).leaf = .dir := by
  -- the relation goes from one edit to the next
  have hrun : ∀ (l : List Edit) (t u : Node), Edited base t u → u.leaf = .dir →
      Edited base (l.foldl Edit.apply t) (l.foldl (Edit.applyUpper base) u) ∧
        (l.foldl (Edit.applyUpper base) u).leaf = .dir := by
    intro l
    induction l with
    | nil => exact fun t u h hu => ⟨h, hu⟩
    | cons e l ih =>
      intro t u h hu
      obtain ⟨hstep, hleaf⟩ := h.step hu e
      exact ih _ _ hstep hleaf
  exact hrun edits base (.dir false []) (edited_start hwf hdir) rfl

/-! ## The loader in the lower layer -/

/-- The edit is neither at or below `usr/bin` nor of a directory on the way there. -/
def Edit.AwayFromLoader (e : Edit) : Prop :=
  ¬ ["usr", "bin"] <+: e.dir ++ [e.name] ∧ ¬ e.dir ++ [e.name] <+: ["usr", "bin"]

/-- An operation depends on the kinds of the lower layer's directories on the way, and on its entry. -/
theorem onUpper_congr {lo' : Option Node} (hway : ∀ q, q <+: p → look lo q = look lo' q)
    (hentry : sub lo (p ++ [n]) = sub lo' (p ++ [n])) (u : Node) :
    onUpper op p n lo u = onUpper op p n lo' u := by
  induction p generalizing lo lo' u with
  | nil =>
    cases u with
    | file b | special => rfl
    | dir mark es => rw [onUpper, onUpper, show lo.bind (·.child n) = _ from hentry]; rfl
  | cons m p ih =>
    cases u with
    | file b | special => rfl
    | dir mark es =>
      cases mark with
      | true => rfl
      | false =>
        have hnext : ∀ q, q <+: p → look (lo.bind (·.child m)) q = look (lo'.bind (·.child m)) q :=
          fun q hq => hway (m :: q) (cons_prefix_cons.mpr ⟨rfl, hq⟩)
        have hview : view (lo.bind (·.child m)) (es.lookup m) [] =
            view (lo'.bind (·.child m)) (es.lookup m) [] := by
          cases es.lookup m with
          | none => exact hnext [] nil_prefix
          | some c => cases c <;> rfl
        simp only [onUpper, Bool.false_eq_true, if_false]
        rw [hview, ih hnext hentry]

/-- Edits away from the loader make the same upper layer with it and without it. -/
theorem applyUpper_loader {loader : Option Bytes} {base lower : Node} {edits : List Edit}
    (h : copyApeLoader loader base = .ok lower)
    (hedits : loader ≠ none → ∀ e ∈ edits, e.AwayFromLoader) (u : Node) :
    edits.foldl (Edit.applyUpper lower) u = edits.foldl (Edit.applyUpper base) u := by
  cases loader with
  | none =>
    cases h
    rfl
  | some b =>
    refine foldl_ext _ _ _ fun u e he => ?_
    obtain ⟨hbelow, habove⟩ := hedits (Option.some_ne_none b) e he
    obtain ⟨r, -, hchanged⟩ := onEntry_changed h
    have hway : ∀ q, q <+: e.dir → look (some lower) q = look (some base) q := by
      intro q hq
      apply hchanged.frame
      exact fun hloader => hbelow (hloader.trans (hq.trans (prefix_append _ _)))
    unfold Edit.applyUpper
    rw [onUpper_congr hway (onEntry_sub h hbelow habove)]

/-! ## What is staged -/

def LeafIsDir : Leaf Bytes → Bool
  | .dir => true
  | _ => false

/-- Nothing of `base` is missing in `t`, or a directory in the one and not in the other. -/
def KeepsKinds (base t : List Name → Option (Leaf Bytes)) : Prop :=
  ∀ p l, base p = some l → ∃ l', t p = some l' ∧ LeafIsDir l' = LeafIsDir l

theorem view_of_look {k : Leaf Bytes} (hup : look up p = some k) (hk : k ≠ .special) :
    view lo up p = some k := by
  induction p generalizing lo up with
  | nil =>
    cases up with
    | none => nomatch hup
    | some u =>
      cases Option.some.inj hup
      cases u with
      | file b => rfl
      | special => exact absurd rfl hk
      | dir mark es => rfl
  | cons n p ih =>
    cases up with
    | none => rw [look_none] at hup; nomatch hup
    | some u =>
      obtain ⟨mark, es, rfl, hlook⟩ := dir_of_look hup
      exact ih hlook

/-- Where the upper layer has nothing of its own, the overlay shows the lower layer or hides it. -/
theorem view_of_not_upper (hup : ∀ k, look up p = some k → k = .special) :
    view lo up p = look lo p ∨ view lo up p = none := by
  induction p generalizing lo up with
  | nil =>
    cases up with
    | none => exact Or.inl rfl
    | some u =>
      cases u with
      | special => exact Or.inr rfl
      | file b | dir mark es => nomatch hup _ rfl
  | cons n p ih =>
    cases up with
    | none => exact Or.inl rfl
    | some u =>
      cases u with
      | file b | special => exact Or.inr rfl
      | dir mark es =>
        cases mark with
        | false => exact ih hup
        | true => exact Or.inr ((@ih none _ hup).elim (fun h => h.trans (look_none p)) id)

theorem view_ne_special (hlo : ∀ q, look lo q ≠ some .special) (p : List Name) :
    view lo up p ≠ some .special := by
  induction p generalizing lo up with
  | nil =>
    cases up with
    | none => exact hlo []
    | some u => cases u <;> exact fun h => by cases h
  | cons n p ih =>
    cases up with
    | none => exact hlo (n :: p)
    | some u =>
      cases u with
      | file b | special => exact fun h => by cases h
      | dir mark es =>
        apply ih
        intro q
        split_ifs
        · rw [look_none]
          exact fun h => by cases h
        · rw [← look_cons]
          exact hlo (n :: q)

section

variable (h : KeepsKinds (look lo) (view lo up))
include h

theorem KeepsKinds.kind {k : Leaf Bytes} (hup : look up p = some k) (hk : k ≠ .special) :
    look lo p = none ∨ ∃ l, look lo p = some l ∧ LeafIsDir k = LeafIsDir l := by
  cases hl : look lo p with
  | none => exact Or.inl rfl
  | some l =>
    obtain ⟨l', hl', hkind⟩ := h p l hl
    rw [view_of_look hup hk] at hl'
    cases Option.some.inj hl'
    exact Or.inr ⟨l, rfl, hkind⟩

/-- Where nothing of the lower layer is hidden, a copy of the upper over the lower makes what the
overlay shows. -/
theorem laidOver_eq_view (p : List Name) : laidOver (look up p) (look lo p) = view lo up p := by
  have hlower (hup : ∀ k, look up p = some k → k = .special) : look lo p = view lo up p := by
    cases view_of_not_upper hup with
    | inl hview => exact hview.symm
    | inr hnone =>
      rw [hnone]
      cases hl : look lo p with
      | none => rfl
      | some l =>
        obtain ⟨l', hl', -⟩ := h p l hl
        nomatch hnone.symm.trans hl'
  cases hup : look up p with
  | none => exact hlower (fun k hk => nomatch hup.symm.trans hk)
  | some k =>
    cases k with
    | special => exact hlower (fun k hk => Option.some.inj (hk.symm.trans hup))
    | file b => exact (view_of_look hup (fun heq => nomatch heq)).symm
    | dir =>
      rw [view_of_look hup (fun heq => nomatch heq)]
      rcases h.kind hup (fun heq => nomatch heq) with hl | ⟨l, hl, hkind⟩
      · rw [hl]
        rfl
      · rw [hl]
        cases l with
        | dir => rfl
        | file b | special => nomatch hkind

theorem compatible_of_keepsKinds (hlo : ∀ p, look lo p ≠ some .special) : Compatible up lo := by
  intro p
  constructor
  · intro b hb
    refine (h.kind hb (fun heq => nomatch heq)).imp_right ?_
    rintro ⟨l, hl, hkind⟩
    cases l with
    | file b' => exact ⟨b', hl⟩
    | special => exact absurd hl (hlo p)
    | dir => nomatch hkind
  · intro hd
    refine (h.kind hd (fun heq => nomatch heq)).imp_right ?_
    rintro ⟨l, hl, hkind⟩
    cases l with
    | dir => exact hl
    | special => exact absurd hl (hlo p)
    | file b => nomatch hkind

end

/-- The copy of the upper layer over the base is the edited tree just if the edits have kept all of
the base. -/
theorem copy_upper_iff {t : Node} (h : Edited base t u) (hu : u.leaf = .dir)
    (hbase : base.leaf = .dir) (hplain : ∀ p, look (some base) p ≠ some .special) :
    (∃ k, copyDirectoryRecursive (some u) (some base) = .ok k ∧ Same (some k) (some t)) ↔
      KeepsKinds (look (some base)) (look (some t)) := by
  have hview : look (some t) = view (some base) (some u) := funext h.agree
  have hcopied : ∀ {k}, copyDirectoryRecursive (some u) (some base) = .ok k → ∀ p,
      look (some k) p = laidOver (look (some u) p) (look (some base) p) := by
    intro k hk
    exact look_copyDirectoryRecursive h.wfUpper (Or.inr (congrArg some hbase)) hk
  constructor
  · rintro ⟨k, hk, hsame⟩ p l hl
    have hp := hsame p
    rw [hcopied hk p, hl] at hp
    cases hup : look (some u) p with
    | none =>
      rw [hup] at hp
      exact ⟨l, hp.symm, rfl⟩
    | some x =>
      rw [hup] at hp
      cases x with
      | special | dir => exact ⟨l, hp.symm, rfl⟩
      | file b =>
        -- a file was not copied to a directory
        refine ⟨.file b, hp.symm, ?_⟩
        have hnot := copyDirectoryRecursive_kinds h.wfUpper hk hup
        cases l with
        | file b' => rfl
        | special => rfl
        | dir => exact absurd hl hnot
  · intro hkeeps
    rw [hview] at hkeeps
    obtain ⟨mark, es, rfl⟩ := exists_dir hu
    obtain ⟨k, hk⟩ := copyDirectoryRecursive_ok h.wfUpper
      (compatible_of_keepsKinds hkeeps hplain)
    refine ⟨k, hk, ?_⟩
    intro p
    rw [hcopied hk p, laidOver_eq_view hkeeps p, h.agree p]

structure BackendsAgree (zip base lower : Node) (edits : List Edit) : Prop where
  userland : ∃ k, stage kOverlayUserland (some zip) (some (edits.foldl Edit.apply base)) = .ok k ∧
    Same (some k) (some (edits.foldl Edit.apply base))
  kernel : ∃ k, stage kOverlayKernel (some zip)
      (some (edits.foldl (Edit.applyUpper lower) (.dir false []))) = .ok k ∧
    Same (some k) (some (edits.foldl Edit.apply base))

theorem laidOver_none_ne (x : Option (Leaf Bytes)) : laidOver x none ≠ some .special := by
  intro h
  unfold laidOver at h
  split at h <;> nomatch h

theorem copy_plain {t : Node} (hwf : Wf (some t)) (ht : t.leaf = .dir)
    (hplain : ∀ p, look (some t) p ≠ some .special) :
    ∃ k, copyDirectoryRecursive (some t) (some (.dir false [])) = .ok k ∧
      Same (some k) (some t) := by
  obtain ⟨mark, es, rfl⟩ := exists_dir ht
  obtain ⟨k, hk⟩ := copyDirectoryRecursive_ok hwf (compatible_none _).getD
  refine ⟨k, hk, ?_⟩
  intro p
  have hcopied := look_copy_empty hwf hk p
  rw [hcopied]
  cases hp : look (some (.dir mark es)) p with
  | none => rfl
  | some l =>
    cases l with
    | file b => rfl
    | dir => rfl
    | special => exact absurd hp (hplain p)

theorem backendsAgree_of_copy (zip base : Node) (edits : List Edit) (hzip : Wf (some zip))
    (hbase : copyDirectoryRecursive (some zip) (some (.dir false [])) = .ok base) :
    BackendsAgree zip base base edits ↔
      KeepsKinds (look (some base)) (look (some (edits.foldl Edit.apply base))) := by
  have hlook := look_copy_empty hzip hbase
  have hplain : ∀ p, look (some base) p ≠ some .special := by
    intro p
    rw [hlook p]
    exact laidOver_none_ne _
  have hdir : base.leaf = .dir := by
    cases zip with
    | file b | special => nomatch hbase
    | dir mark es => exact Option.some.inj (hlook [])
  have hwf : Wf (some base) := wf_copyDirectoryRecursive (wf_emptyDir false) hbase
  obtain ⟨hedited, hupper⟩ := edited_all hwf hdir edits
  have hstage : stage kOverlayKernel (some zip)
      (some (edits.foldl (Edit.applyUpper base) (.dir false []))) =
      copyDirectoryRecursive (some (edits.foldl (Edit.applyUpper base) (.dir false [])))
        (some base) := by
    unfold stage
    rw [if_neg (by decide), hbase]
  rw [← copy_upper_iff hedited hupper hdir hplain]
  constructor
  · intro h
    rw [← hstage]
    exact h.kernel
  · intro h
    refine ⟨?_, by rw [hstage]; exact h⟩
    apply copy_plain hedited.wf (hedited.dirs hupper)
    intro p
    rw [hedited.agree p]
    exact view_ne_special hplain p

/-- For every base tree and all edits of it, away from the loader if there is one: the two backends
stage the same tree, the edited one, just if no file or directory of the base is missing after the
edits, or has become the other. -/
theorem backendsAgree_iff_keepsKinds (mark : Bool) (es : List (Name × Node))
    (hzip : Wf (some (.dir mark es))) (loader : Option Bytes) (edits : List Edit)
    (hedits : loader ≠ none → ∀ e ∈ edits, e.AwayFromLoader) :
    ∃ base, copyDirectoryRecursive (some (.dir mark es)) (some (.dir false [])) = .ok base ∧
      ∀ lower, copyApeLoader loader base = .ok lower →
        (BackendsAgree (.dir mark es) base lower edits ↔
          KeepsKinds (look (some base)) (look (some (edits.foldl Edit.apply base)))) := by
  obtain ⟨base, hbase⟩ := copyDirectoryRecursive_ok hzip (compatible_none _).getD
  refine ⟨base, hbase, fun lower hlower => ?_⟩
  rw [← backendsAgree_of_copy (.dir mark es) base edits hzip hbase]
  have hupper := applyUpper_loader hlower hedits (.dir false [])
  exact ⟨fun h => ⟨h.userland, hupper ▸ h.kernel⟩, fun h => ⟨h.userland, hupper ▸ h.kernel⟩⟩

def oneFile : Node := .dir false [("a", .file [0x31]), ("usr", .dir false [])]

/-- The file that was deleted through the overlay comes back. -/
theorem not_backendsAgree_unlink :
    ∃ base, copyDirectoryRecursive (some oneFile) (some (.dir false [])) = .ok base ∧
      ¬ BackendsAgree oneFile base base [⟨[], "a", .unlink⟩] := by
  refine ⟨_, rfl, ?_⟩
  intro h
  obtain ⟨k, hk, hsame⟩ := h.kernel
  cases hk
  have hgone := hsame ["a"]
  nomatch hgone

theorem wf_oneFile : Wf (some oneFile) :=
  wf_setEntry "a" (wf_setEntry "usr" (wf_emptyDir false) (wf_emptyDir false)) (wf_file _)

/-- A file is written to, on a host with a loader. -/
theorem backendsAgree_overwrite :
    ∃ base lower, copyDirectoryRecursive (some oneFile) (some (.dir false [])) = .ok base ∧
      copyApeLoader (some [0x7f]) base = .ok lower ∧
      BackendsAgree oneFile base lower [⟨[], "a", .write [0x32]⟩] := by
  obtain ⟨base, hbase, h⟩ := backendsAgree_iff_keepsKinds false _ wf_oneFile (some [0x7f])
    [⟨[], "a", .write [0x32]⟩] (fun _ => by unfold Edit.AwayFromLoader; decide)
  cases hbase
  refine ⟨_, _, rfl, rfl, (h _ rfl).mpr fun p l hl => ?_⟩
  cases p with
  | nil => exact ⟨l, hl, rfl⟩
  | cons n p =>
    by_cases hn : n = "a"
    · subst hn
      cases p with
      | nil =>
        cases hl
        exact ⟨.file [0x32], rfl, rfl⟩
      | cons m p =>
        change look none p = some l at hl
        rw [look_none] at hl
        nomatch hl
    · refine ⟨l, Eq.trans ?_ hl, rfl⟩
      exact congrArg (look · p) (lookup_setEntry_ne hn (.file [0x32]) _)

end CosmoRuby.Caboose
