import CosmoRuby.Caboose.State
import CosmoRuby.Lib.Bytes
import CosmoRuby.Lib.FileTree

/-!
# Recursive copies

`CopyFile` and `CopyDirectoryRecursive` of `caboose/inc/recursive_copy.inc`, on file trees. A copy
adds to what is at the destination: files are overwritten, directories joined, and what is neither a
file nor a directory is skipped.
-/

namespace CosmoRuby.Caboose

open Lib List Option

abbrev Node : Type := FileTree Name Bytes

def copyFile (b : Bytes) (dst : Option Node) : Except Errno Node :=
  match dst with
  | none => .ok (.file b)
  | some (.file _) => .ok (.file b)
  | some (.dir _ _) => .error .isdir
  | some .special => .error .loop

mutual

/-- The loop of `CopyDirectoryRecursive` over what `readdir` lists; `dst` is what is at the
destination. -/
def copyEntries : List (Name × Node) → Node → Except Errno Node
  | [], dst => .ok dst
  | (n, src) :: rest, dst =>
    match copyEntry n src dst with
    | .error e => .error e
    | .ok dst => copyEntries rest dst

/-- One entry. A destination that exists is taken for a directory (`EEXIST`), whatever it is. -/
def copyEntry (n : Name) : Node → Node → Except Errno Node
  | .special, dst => .ok dst
  | .file b, .dir mark ds =>
    match copyFile b (ds.lookup n) with
    | .error e => .error e
    | .ok c => .ok (.dir mark (setEntry n c ds))
  | .dir _ es, .dir mark ds =>
    match copyEntries es ((ds.lookup n).getD (.dir false [])) with
    | .error e => .error e
    | .ok c => .ok (.dir mark (setEntry n c ds))
  | _, _ => .error .notdir

end

def copyDirectoryRecursive (src : Option Node) (dst : Option Node) : Except Errno Node :=
  match src with
  | some (.dir _ es) => copyEntries es (dst.getD (.dir false []))
  | some _ => .error .notdir
  | none => .error .noent

/-! ## What a copy makes -/

def laidOver : Option (Leaf Bytes) → Option (Leaf Bytes) → Option (Leaf Bytes)
  | some (.file b), _ => some (.file b)
  | some .dir, none => some .dir
  | _, dst => dst

def CopiedTo (src dst : Option Node) (r : Option Node) : Prop :=
  match src with
  | some (.file b) => ∃ c, copyFile b dst = .ok c ∧ r = some c
  | some (.dir _ es) => ∃ c, copyEntries es (dst.getD (.dir false [])) = .ok c ∧ r = some c
  | _ => r = dst

variable {n : Name} {src dst r : Node}

theorem copyEntry_put (h : copyEntry n src dst = .ok r) (hsrc : src ≠ .special) :
    ∃ mark ds c, dst = .dir mark ds ∧ r = .dir mark (setEntry n c ds) ∧
      CopiedTo (some src) (ds.lookup n) (some c) := by
  cases dst with
  | file b' | special =>
    cases src with
    | special => exact absurd rfl hsrc
    | file b | dir mark es => nomatch h
  | dir mark ds =>
    cases src with
    | special => exact absurd rfl hsrc
    | file b =>
      rw [copyEntry] at h
      cases hc : copyFile b (ds.lookup n) with
      | error e => rw [hc] at h; nomatch h
      | ok c =>
        rw [hc] at h
        cases h
        exact ⟨mark, ds, c, rfl, rfl, c, hc, rfl⟩
    | dir mark' es =>
      rw [copyEntry] at h
      cases hc : copyEntries es ((ds.lookup n).getD (.dir false [])) with
      | error e => rw [hc] at h; nomatch h
      | ok c =>
        rw [hc] at h
        cases h
        exact ⟨mark, ds, c, rfl, rfl, c, hc, rfl⟩

theorem copyEntry_shape (h : copyEntry n src dst = .ok r) :
    r.leaf = dst.leaf ∧ CopiedTo (some src) (dst.child n) (r.child n) ∧
      ∀ m, m ≠ n → r.child m = dst.child m := by
  by_cases hsrc : src = .special
  · rw [hsrc, copyEntry] at h
    cases h
    rw [hsrc]
    exact ⟨rfl, rfl, fun m _ => rfl⟩
  · obtain ⟨mark, ds, c, rfl, rfl, hc⟩ := copyEntry_put h hsrc
    refine ⟨rfl, ?_, fun m hm => lookup_setEntry_ne hm c ds⟩
    rw [child_dir, child_dir, lookup_setEntry_self]
    exact hc

variable {es : List (Name × Node)}

theorem lookup_of_not_mem (h : n ∉ es.map Prod.fst) : es.lookup n = none := by
  apply List.lookup_eq_none_iff.mpr
  intro e he
  apply bne_iff_ne.mpr
  intro heq
  exact h (List.mem_map.mpr ⟨e, he, heq.symm⟩)

theorem lookup_cons_of_mem {m : Name} (src : Node)
    (hfresh : n ∉ es.map Prod.fst) (hm : m ∈ es.map Prod.fst) :
    ((n, src) :: es).lookup m = es.lookup m := by
  have hne : m ≠ n := fun heq => hfresh (heq ▸ hm)
  rw [lookup_cons, beq_eq_false_iff_ne.mpr hne]

theorem copyEntries_shape
    (hnodup : (es.map Prod.fst).Nodup) (h : copyEntries es dst = .ok r) :
    r.leaf = dst.leaf ∧ ∀ n, CopiedTo (es.lookup n) (dst.child n) (r.child n) := by
  induction es generalizing dst with
  | nil =>
    rw [copyEntries] at h
    cases h
    exact ⟨rfl, fun n => rfl⟩
  | cons e es ih =>
    obtain ⟨k, src⟩ := e
    rw [copyEntries] at h
    cases hk : copyEntry k src dst with
    | error e => rw [hk] at h; nomatch h
    | ok dst' =>
      rw [hk] at h
      obtain ⟨hleaf, hself, hother⟩ := copyEntry_shape hk
      obtain ⟨hfresh, hnodup⟩ := List.nodup_cons.mp hnodup
      obtain ⟨hleaf', hrest⟩ := ih hnodup h
      refine ⟨hleaf'.trans hleaf, ?_⟩
      intro n
      by_cases hn : n = k
      · -- the name does not come again
        subst hn
        have hlast := hrest n
        rw [lookup_of_not_mem hfresh] at hlast
        rw [lookup_cons, beq_self_eq_true, show r.child n = dst'.child n from hlast]
        exact hself
      · have hne : (n == k) = false := beq_eq_false_iff_ne.mpr hn
        rw [lookup_cons, hne, ← hother n hn]
        exact hrest n

variable {dst : Option Node} {b : Bytes}

theorem copyFile_eq {c : Node} (h : copyFile b dst = .ok c) :
    c = .file b ∧ look dst [] ≠ some .dir := by
  unfold copyFile at h
  split at h
  · cases h
    exact ⟨rfl, fun h => nomatch h⟩
  · cases h
    exact ⟨rfl, fun h => nomatch h⟩
  · nomatch h
  · nomatch h

variable {mark : Bool}

theorem look_copyEntries {dst : Node}
    (hwf : Wf (some (.dir mark es))) (h : copyEntries es dst = .ok r) (p : List Name) :
    (p ≠ [] → look (some r) p = laidOver (look (some (.dir mark es)) p) (look (some dst) p)) ∧
      ∀ b, look (some (.dir mark es)) p = some (.file b) → look (some dst) p ≠ some .dir := by
  induction p generalizing mark es dst r with
  | nil => exact ⟨fun h => absurd rfl h, fun b hb => nomatch hb⟩
  | cons n p ih =>
    have hnodup : (es.map Prod.fst).Nodup := hwf [] _ rfl
    have hcopied := (copyEntries_shape hnodup h).2 n
    have hchild := hwf.child n
    rw [child_dir] at hchild
    rw [look_some_cons, look_some_cons, look_some_cons, child_dir]
    cases hsrc : es.lookup n with
    | none =>
      rw [hsrc] at hcopied
      rw [show r.child n = dst.child n from hcopied, look_none]
      exact ⟨fun _ => rfl, fun b hb => nomatch hb⟩
    | some src =>
      rw [hsrc] at hcopied hchild
      cases src with
      | special =>
        rw [show r.child n = dst.child n from hcopied]
        cases p with
        | nil => exact ⟨fun _ => rfl, fun b hb => nomatch hb⟩
        | cons m p =>
          rw [look_some_cons, child_special, look_none]
          exact ⟨fun _ => rfl, fun b hb => nomatch hb⟩
      | file b =>
        obtain ⟨c, hc, hr⟩ := hcopied
        obtain ⟨rfl, hnotdir⟩ := copyFile_eq hc
        rw [hr]
        cases p with
        | nil => exact ⟨fun _ => rfl, fun b' _ => hnotdir⟩
        | cons m p =>
          -- there is nothing below what a file may be copied to
          have hbelow : look (dst.child n) (m :: p) = none := by
            by_contra hne
            exact hnotdir (look_eq_dir_of_child (t := dst.child n) (p := []) hne)
          rw [look_some_cons, child_file, look_none, hbelow]
          exact ⟨fun _ => rfl, fun b hb => nomatch hb⟩
      | dir mark' es' =>
        obtain ⟨c, hc, hr⟩ := hcopied
        obtain ⟨hlook, hfile⟩ := ih hchild hc
        have hnodup' : (es'.map Prod.fst).Nodup := hchild [] _ rfl
        have hleaf := (copyEntries_shape hnodup' hc).1
        -- an absent destination is a new directory
        have hdst : p ≠ [] → look (some ((dst.child n).getD (.dir false []))) p =
            look (dst.child n) p := by
          intro hp
          cases dst.child n with
          | some d => rfl
          | none =>
            obtain ⟨m, q, rfl⟩ := exists_cons_of_ne_nil hp
            rw [getD_none, look_some_cons, child_dir, lookup_nil, look_none, look_none]
        rw [hr]
        cases p with
        | nil =>
          refine ⟨fun _ => ?_, fun b hb => nomatch hb⟩
          rw [look_some_nil, hleaf, look_some_nil]
          cases dst.child n with
          | none => rfl
          | some d => rfl
        | cons m p =>
          have hne : m :: p ≠ [] := cons_ne_nil m p
          rw [← hdst hne]
          exact ⟨fun _ => hlook hne, hfile⟩

def Compatible (src dst : Option Node) : Prop :=
  ∀ p, (∀ b, look src p = some (.file b) → look dst p = none ∨ ∃ b', look dst p = some (.file b')) ∧
    (look src p = some .dir → look dst p = none ∨ look dst p = some .dir)

theorem Compatible.child {dst : Node} (h : Compatible (some src) (some dst)) (n : Name) :
    Compatible (src.child n) (dst.child n) := fun p => h (n :: p)

theorem compatible_none (src : Option Node) : Compatible src none := by
  intro p
  rw [look_none]
  exact ⟨fun _ _ => Or.inl rfl, fun _ => Or.inl rfl⟩

theorem Compatible.getD (h : Compatible (some (.dir mark es)) dst) :
    Compatible (some (.dir mark es)) (some (dst.getD (.dir false []))) := by
  cases dst with
  | some d => exact h
  | none =>
    intro p
    cases p with
    | nil => exact ⟨fun b hb => (nomatch hb), fun _ => Or.inr rfl⟩
    | cons n p =>
      rw [look_some_cons, getD_none, look_some_cons, child_dir, child_dir, lookup_nil,
        look_none]
      exact ⟨fun _ _ => Or.inl rfl, fun _ => Or.inl rfl⟩

theorem Compatible.leaf (h : Compatible (some (.dir mark es)) dst) :
    (dst.getD (.dir false [])).leaf = .dir := by
  cases dst with
  | none => rfl
  | some d =>
    rcases (h []).2 rfl with hnone | hdir
    · nomatch hnone
    · exact Option.some.inj hdir

theorem copyFile_ok (h : Compatible (some (.file b)) dst) : copyFile b dst = .ok (.file b) := by
  rcases (h []).1 b rfl with hnone | ⟨b', hfile⟩
  · cases dst with
    | none => rfl
    | some d => nomatch hnone
  · cases dst with
    | none => nomatch hfile
    | some d =>
      cases d with
      | file b'' => rfl
      | special | dir mark es => nomatch hfile

theorem exists_dir {dst : Node} (h : dst.leaf = .dir) : ∃ mark ds, dst = .dir mark ds := by
  cases dst with
  | file b | special => nomatch h
  | dir mark ds => exact ⟨mark, ds, rfl⟩

theorem wf_tail {e : Name × Node}
    (h : Wf (some (.dir mark (e :: es)))) : Wf (some (.dir mark es)) := by
  have hnodup : ((e :: es).map Prod.fst).Nodup := h [] _ rfl
  obtain ⟨hfresh, htail⟩ := List.nodup_cons.mp hnodup
  apply wf_some_iff.mpr
  refine ⟨htail, ?_⟩
  intro m
  rw [child_dir]
  by_cases hm : m ∈ es.map Prod.fst
  · rw [← lookup_cons_of_mem e.2 hfresh hm]
    exact h.child m
  · rw [lookup_of_not_mem hm]
    exact wf_none

mutual

theorem copyEntries_ok : ∀ (es : List (Name × Node)) (dst : Node) (mark : Bool),
    Wf (some (.dir mark es)) → dst.leaf = .dir → Compatible (some (.dir mark es)) (some dst) →
      ∃ r, copyEntries es dst = .ok r
  | [], dst, _, _, _, _ => ⟨dst, rfl⟩
  | (n, src) :: rest, dst, mark, hwf, hdir, hcomp => by
    have hnodup : (((n, src) :: rest).map Prod.fst).Nodup := hwf [] _ rfl
    have hfresh := (List.nodup_cons.mp hnodup).1
    have hself : ((n, src) :: rest).lookup n = some src := by rw [lookup_cons, beq_self_eq_true]
    have hsrc := hwf.child n
    have hcompsrc := hcomp.child n
    rw [child_dir, hself] at hsrc hcompsrc
    obtain ⟨dst', hdst'⟩ := copyEntry_ok n src dst hsrc hdir hcompsrc
    obtain ⟨hleaf, -, hother⟩ := copyEntry_shape hdst'
    have hcomp' : Compatible (some (.dir mark rest)) (some dst') := by
      intro p
      cases p with
      | nil => exact ⟨fun b hb => (nomatch hb), fun _ => Or.inr (by rw [look_some_nil, hleaf, hdir])⟩
      | cons m p =>
        rw [look_some_cons, child_dir, look_some_cons]
        by_cases hm : m ∈ rest.map Prod.fst
        · have hne : m ≠ n := fun heq => hfresh (heq ▸ hm)
          rw [← lookup_cons_of_mem src hfresh hm, hother m hne]
          exact hcomp.child m p
        · rw [lookup_of_not_mem hm, look_none]
          exact ⟨fun b hb => (nomatch hb), fun hd => (nomatch hd)⟩
    obtain ⟨r, hr⟩ := copyEntries_ok rest dst' mark (wf_tail hwf) (hleaf.trans hdir) hcomp'
    refine ⟨r, ?_⟩
    rw [copyEntries, hdst']
    exact hr

theorem copyEntry_ok (n : Name) : ∀ src dst : Node, Wf (some src) → dst.leaf = .dir →
    Compatible (some src) (dst.child n) → ∃ r, copyEntry n src dst = .ok r
  | .special, dst, _, _, _ => ⟨dst, by rw [copyEntry]⟩
  | .file b, dst, _, hdir, hcomp => by
    obtain ⟨mark, ds, rfl⟩ := exists_dir hdir
    refine ⟨.dir mark (setEntry n (.file b) ds), ?_⟩
    rw [copyEntry, show copyFile b (ds.lookup n) = .ok (.file b) from copyFile_ok hcomp]
  | .dir mark' es, dst, hwf, hdir, hcomp => by
    obtain ⟨mark, ds, rfl⟩ := exists_dir hdir
    obtain ⟨r, hr⟩ := copyEntries_ok es _ mark' hwf hcomp.leaf hcomp.getD
    refine ⟨.dir mark (setEntry n r ds), ?_⟩
    rw [copyEntry]
    rw [show copyEntries es ((ds.lookup n).getD (.dir false [])) = .ok r from hr]

end

theorem look_copyDirectoryRecursive (hwf : Wf (some src))
    (hdst : look dst [] = none ∨ look dst [] = some .dir)
    (h : copyDirectoryRecursive (some src) dst = .ok r) (p : List Name) :
    look (some r) p = laidOver (look (some src) p) (look dst p) := by
  cases src with
  | file b | special => nomatch h
  | dir mark es =>
    have hcopy : copyEntries es (dst.getD (.dir false [])) = .ok r := h
    have hnodup : (es.map Prod.fst).Nodup := hwf [] _ rfl
    cases p with
    | nil =>
      rw [look_some_nil, (copyEntries_shape hnodup hcopy).1]
      cases dst with
      | none => rfl
      | some d =>
        rcases hdst with hnone | hdir
        · nomatch hnone
        · rw [look_some_nil, look_some_nil, Option.some.inj hdir]
          rw [look_some_nil] at hdir
          exact hdir
    | cons n p =>
      rw [(look_copyEntries hwf hcopy (n :: p)).1 (cons_ne_nil n p)]
      cases dst with
      | some d => rfl
      | none =>
        have hempty : look (some (.dir false [] : Node)) (n :: p) = none := look_none p
        rw [getD_none, hempty, look_none]

theorem copyDirectoryRecursive_kinds
    (hwf : Wf (some src)) (h : copyDirectoryRecursive (some src) dst = .ok r) {p : List Name}
    (hsrc : look (some src) p = some (.file b)) : look dst p ≠ some .dir := by
  cases src with
  | file b | special => nomatch h
  | dir mark es =>
    have hcopy : copyEntries es (dst.getD (.dir false [])) = .ok r := h
    have hne := (look_copyEntries hwf hcopy p).2 b hsrc
    cases dst with
    | none =>
      rw [look_none]
      exact fun heq => nomatch heq
    | some d => exact hne

theorem copyDirectoryRecursive_ok
    (hwf : Wf (some (.dir mark es))) (hcomp : Compatible (some (.dir mark es)) dst) :
    ∃ r, copyDirectoryRecursive (some (.dir mark es)) dst = .ok r := by
  exact copyEntries_ok es _ mark hwf hcomp.leaf hcomp.getD

mutual

theorem wf_copyEntries : ∀ (es : List (Name × Node)) (dst r : Node), Wf (some dst) →
    copyEntries es dst = .ok r → Wf (some r)
  | [], dst, r, hdst, h => by
    rw [copyEntries] at h
    cases h
    exact hdst
  | (n, src) :: rest, dst, r, hdst, h => by
    rw [copyEntries] at h
    cases hc : copyEntry n src dst with
    | error e => rw [hc] at h; nomatch h
    | ok dst' =>
      rw [hc] at h
      exact wf_copyEntries rest dst' r (wf_copyEntry n src dst dst' hdst hc) h

theorem wf_copyEntry (n : Name) : ∀ src dst r : Node, Wf (some dst) →
    copyEntry n src dst = .ok r → Wf (some r)
  | .special, dst, r, hdst, h => by
    rw [copyEntry] at h
    cases h
    exact hdst
  | .file b, dst, r, hdst, h => by
    obtain ⟨mark, ds, c, rfl, rfl, c', hc, hr⟩ := copyEntry_put h nofun
    rw [Option.some.inj hr, (copyFile_eq hc).1]
    exact wf_setEntry n hdst (wf_file b)
  | .dir mark' es, dst, r, hdst, h => by
    obtain ⟨mark, ds, c, rfl, rfl, c', hc, hr⟩ := copyEntry_put h nofun
    have hold : Wf (some ((ds.lookup n).getD (.dir false []))) := by
      cases hl : ds.lookup n with
      | none => exact wf_emptyDir false
      | some d =>
        rw [getD_some, ← hl]
        exact hdst.child n
    rw [Option.some.inj hr]
    exact wf_setEntry n hdst (wf_copyEntries es _ c' hold hc)

end

theorem wf_copyDirectoryRecursive {src : Option Node} (hdst : Wf dst)
    (h : copyDirectoryRecursive src dst = .ok r) : Wf (some r) := by
  cases src with
  | none => nomatch h
  | some c =>
    cases c with
    | file b | special => nomatch h
    | dir mark es =>
      cases dst with
      | none => exact wf_copyEntries es _ r (wf_emptyDir false) h
      | some d => exact wf_copyEntries es d r hdst h

theorem look_copy_empty (hwf : Wf (some src))
    (h : copyDirectoryRecursive (some src) (some (.dir false [])) = .ok r) (p : List Name) :
    look (some r) p = laidOver (look (some src) p) none := by
  rw [look_copyDirectoryRecursive hwf (Or.inr rfl) h p]
  cases p with
  | nil =>
    cases src with
    | file b | special => nomatch h
    | dir mark es => rfl
  | cons n p =>
    have hempty : look (some (.dir false [] : Node)) (n :: p) = none := look_none p
    rw [hempty]

end CosmoRuby.Caboose
