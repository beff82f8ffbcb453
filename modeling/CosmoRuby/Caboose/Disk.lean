import CosmoRuby.Caboose.Copy

/-!
# The disk

The system calls of a caboose that change the file system, as changes of one entry of a directory.
Permissions, links and the modes of files are left out.
-/

namespace CosmoRuby.Caboose

open Lib List

def creat (b : Bytes) : Change Name Bytes := fun old => (copyFile b old).map some

def mkdir : Change Name Bytes
  | none => .ok (some (.dir false []))
  | some _ => .error .exist

def unlink : Change Name Bytes
  | none => .error .noent
  | some (.dir _ _) => .error .isdir
  | some _ => .ok none

def rmdir : Change Name Bytes
  | none => .error .noent
  | some (.dir _ []) => .ok none
  | some (.dir _ _) => .error .notempty
  | some _ => .error .notdir

def truncate (size : Nat) : Change Name Bytes
  | none => .error .noent
  | some (.file b) => .ok (some (.file (b.take size ++ List.replicate (size - b.length) 0)))
  | some (.dir _ _) => .error .isdir
  | some .special => .error .loop

def removeTree : Change Name Bytes
  | some (.dir _ _) => .ok none
  | old => .ok old

def install (c : Node) : Change Name Bytes
  | some (.dir _ _) => .error .isdir
  | _ => .ok (some c)

def sys (f : Change Name Bytes) (p : List Name) (disk : Node) : Except Errno Node :=
  if h : p = [] then .error .exist else onEntry f p.dropLast (p.getLast h) disk

def fileAt (disk : Node) (p : List Name) : Option Bytes :=
  match sub (some disk) p with
  | some (.file b) => some b
  | _ => none

def rename (src dst : List Name) (disk : Node) : Except Errno Node :=
  match fileAt disk src with
  | none => .error .noent
  | some b =>
    match sys unlink src disk with
    | .error e => .error e
    | .ok disk => sys (install (.file b)) dst disk

variable {disk disk' : Node} {f : Change Name Bytes} {p q : List Name} {b : Bytes}

theorem sys_changed (h : sys f p disk = .ok disk') :
    p ≠ [] ∧ ∃ r, f (sub (some disk) p) = .ok r ∧ sub (some disk') p = r ∧
      look (some disk) p.dropLast = some .dir ∧
      ∀ q, ¬p <+: q → look (some disk') q = look (some disk) q := by
  unfold sys at h
  split_ifs at h with hp
  obtain ⟨r, hr, hchanged⟩ := onEntry_changed h
  rw [dropLast_append_getLast hp] at hr
  refine ⟨hp, r, hr, ?_, hchanged.parent, ?_⟩
  · have hentry := hchanged.entry
    rwa [dropLast_append_getLast hp] at hentry
  · intro q hq
    apply hchanged.frame
    rwa [dropLast_append_getLast hp]

variable {r t : Option Node}

theorem sys_ok (hp : p ≠ []) (hdir : look (some disk) p.dropLast = some .dir)
    (hf : f (sub (some disk) p) = .ok r) : ∃ disk', sys f p disk = .ok disk' := by
  unfold sys
  rw [dif_neg hp]
  apply onEntry_ok hdir
  rwa [dropLast_append_getLast hp]

theorem fileAt_eq_some : fileAt disk p = some b ↔ look (some disk) p = some (.file b) := by
  unfold fileAt look
  cases sub (some disk) p with
  | none => exact ⟨fun h => (nomatch h), fun h => (nomatch h)⟩
  | some c =>
    cases c with
    | file b' =>
      constructor
      · intro h
        rw [Option.some.inj h]
        rfl
      · intro h
        have hleaf : Leaf.file b' = Leaf.file b := Option.some.inj h
        rw [Leaf.file.inj hleaf]
    | special | dir mark es => exact ⟨fun h => (nomatch h), fun h => (nomatch h)⟩

theorem creat_eq (h : creat b t = .ok r) : r = some (.file b) := by
  unfold creat at h
  cases hc : copyFile b t with
  | error e => rw [hc] at h; nomatch h
  | ok c =>
    rw [hc] at h
    cases h
    rw [(copyFile_eq hc).1]

theorem mkdir_eq (h : mkdir t = .ok r) : t = none ∧ r = some (.dir false []) := by
  cases t with
  | none =>
    cases h
    exact ⟨rfl, rfl⟩
  | some c => nomatch h

theorem unlink_eq (h : unlink t = .ok r) : r = none := by
  cases t with
  | none => nomatch h
  | some c =>
    cases c with
    | dir mark es => nomatch h
    | file b | special => cases h; rfl

theorem rmdir_eq (h : rmdir t = .ok r) : r = none := by
  cases t with
  | none => nomatch h
  | some c =>
    cases c with
    | file b | special => nomatch h
    | dir mark es =>
      cases es with
      | nil => cases h; rfl
      | cons e es => nomatch h

/-! ## What stays -/

def KeepsWf (f : Change Name Bytes) : Prop := ∀ t r, Wf t → f t = .ok r → Wf r

/-- Only what is at or below one of the paths `ps` may have changed, and names are still unique. -/
structure Touches (ps : List (List Name)) (d d' : Node) : Prop where
  outside : ∀ q, (∀ p ∈ ps, ¬p <+: q) → look (some d') q = look (some d) q
  wf : Wf (some d) → Wf (some d')

variable {ps ps' : List (List Name)} {d d' d'' : Node}

theorem Touches.refl (ps : List (List Name)) (d : Node) : Touches ps d d :=
  ⟨fun _ _ => rfl, id⟩

theorem Touches.trans (h : Touches ps d d') (h' : Touches ps d' d'') : Touches ps d d'' where
  outside q hq := (h'.outside q hq).trans (h.outside q hq)
  wf hwf := h'.wf (h.wf hwf)

theorem Touches.mono (hps : ps ⊆ ps') (h : Touches ps d d') : Touches ps' d d' where
  outside q hq := h.outside q fun p hp => hq p (hps hp)
  wf := h.wf

theorem sys_touches (hf : KeepsWf f) (h : sys f p d = .ok d') : Touches [p] d d' where
  outside := by
    intro q hq
    obtain ⟨-, -, -, -, -, hframe⟩ := sys_changed h
    exact hframe q (hq p mem_cons_self)
  wf := by
    intro hwf
    unfold sys at h
    split_ifs at h
    exact onEntry_wf hf hwf h

def RefusesDir (f : Change Name Bytes) : Prop := ∀ mark es r, f (some (.dir mark es)) ≠ .ok r

theorem look_of_refusesDir {x : Leaf Bytes} (hf : RefusesDir f) (h : sys f p d = .ok d')
    (hne : p ≠ q) (hq : look (some d) q = some x) : look (some d') q = some x := by
  obtain ⟨-, r, hr, -, -, hframe⟩ := sys_changed h
  rw [← hq]
  apply hframe
  rintro ⟨rest, rfl⟩
  cases rest with
  | nil => exact hne (append_nil p).symm
  | cons n rest =>
    -- what is below the path is in a directory
    have hdir := look_eq_dir_of_child (hq ▸ Option.some_ne_none x)
    unfold look at hdir
    cases hs : sub (some d) p with
    | none => rw [hs] at hdir; nomatch hdir
    | some c =>
      rw [hs] at hdir hr
      obtain ⟨mark, es, rfl⟩ := exists_dir (Option.some.inj hdir)
      exact hf mark es r hr

theorem creat_keepsWf (b : Bytes) : KeepsWf (creat b) := by
  intro t r _ h
  rw [creat_eq h]
  exact wf_file b

theorem mkdir_keepsWf : KeepsWf mkdir := by
  intro t r _ h
  rw [(mkdir_eq h).2]
  exact wf_emptyDir false

theorem unlink_keepsWf : KeepsWf unlink := by
  intro t r _ h
  rw [unlink_eq h]
  exact wf_none

theorem truncate_keepsWf (size : Nat) : KeepsWf (truncate size) := by
  intro t r _ h
  unfold truncate at h
  split at h
  · nomatch h
  · cases h
    exact wf_file _
  · nomatch h
  · nomatch h

theorem removeTree_keepsWf : KeepsWf removeTree := by
  intro t r ht h
  unfold removeTree at h
  split at h
  · cases h
    exact wf_none
  · cases h
    exact ht

theorem install_keepsWf {c : Node} (hc : Wf (some c)) : KeepsWf (install c) := by
  intro t r _ h
  unfold install at h
  split at h
  · nomatch h
  · cases h
    exact hc

theorem unlink_refusesDir : RefusesDir unlink := fun _ _ _ h => nomatch h

theorem install_refusesDir (c : Node) : RefusesDir (install c) := fun _ _ _ h => nomatch h

theorem creat_refusesDir (b : Bytes) : RefusesDir (creat b) := fun _ _ _ h => nomatch h

theorem rename_ok {src dst : List Name} (h : rename src dst d = .ok d') :
    ∃ b mid, fileAt d src = some b ∧ sys unlink src d = .ok mid ∧
      sys (install (.file b)) dst mid = .ok d' := by
  unfold rename at h
  cases hb : fileAt d src with
  | none => rw [hb] at h; nomatch h
  | some b =>
    rw [hb] at h
    dsimp only at h
    cases hmid : sys unlink src d with
    | error e => rw [hmid] at h; nomatch h
    | ok mid =>
      rw [hmid] at h
      exact ⟨b, mid, rfl, rfl, h⟩

end CosmoRuby.Caboose
