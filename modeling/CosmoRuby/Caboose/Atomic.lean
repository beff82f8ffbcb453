import CosmoRuby.Caboose.Lifecycle
import CosmoRuby.Lib.Outcome

/-!
# `Persist` and the binary

What each step of `Persist` touches, whether it succeeds or fails, and from that: the binary keeps
its content until the last step, which gives it the new one. This is so if its path means the same
file in the directory in which the command is started and in the staging directory, to which the
command goes before it has used the path for the last time.
-/

namespace CosmoRuby.Caboose

open Lib ToasterState ToasterAction OverlayBackend ExitCode List

/-! ## The paths of the binary and of its copy -/

def PathName.NamesFile (p : PathName) : Prop :=
  ∃ front n, p.comps = front ++ [n] ∧ n ≠ "" ∧ n ≠ "." ∧ n ≠ ".."

def Sibling (bin tmp : List Name) : Prop := ∃ d n, bin = d ++ [n] ∧ tmp = d ++ [n ++ ".tmp"]

variable {n : Name}

theorem walk_name (h : n ≠ "" ∧ n ≠ "." ∧ n ≠ "..") (p : List Name) : walk p n = p ++ [n] := by
  unfold walk
  rw [if_neg (fun hn => hn.elim h.1 h.2.1), if_neg h.2.2]

theorem length_tmp (n : Name) : (n ++ ".tmp").length = n.length + 4 := by
  rw [String.length_append]
  rfl

theorem tmp_name (n : Name) : n ++ ".tmp" ≠ "" ∧ n ++ ".tmp" ≠ "." ∧ n ++ ".tmp" ≠ ".." := by
  have hlength := length_tmp n
  refine ⟨?_, ?_, ?_⟩
  all_goals
    intro h
    rw [h] at hlength
    have hshort : n.length + 4 ≤ 2 := by
      rw [← hlength]
      decide
    omega

theorem resolve_append (cwd front : List Name) (abs : Bool) (n : Name) :
    resolve cwd ⟨abs, front ++ [n]⟩ = walk (resolve cwd ⟨abs, front⟩) n := by
  unfold resolve
  rw [foldl_append]
  rfl

variable {front : List Name} {p : PathName}

theorem resolve_file (hcomps : p.comps = front ++ [n])
    (hn : n ≠ "" ∧ n ≠ "." ∧ n ≠ "..") (cwd : List Name) :
    resolve cwd p = resolve cwd ⟨p.absolute, front⟩ ++ [n] := by
  have hp : p = ⟨p.absolute, front ++ [n]⟩ := by rw [← hcomps]
  rw [hp, resolve_append, walk_name hn]

theorem resolve_tmp (hcomps : p.comps = front ++ [n]) (cwd : List Name) :
    resolve cwd p.tmp = resolve cwd ⟨p.absolute, front⟩ ++ [n ++ ".tmp"] := by
  have htmp : p.tmp = ⟨p.absolute, front ++ [n ++ ".tmp"]⟩ := by
    unfold PathName.tmp
    rw [hcomps, dropLast_concat, getLastD_concat]
  rw [htmp, resolve_append, walk_name (tmp_name n)]

theorem resolve_sibling (h : p.NamesFile) (cwd : List Name) :
    Sibling (resolve cwd p) (resolve cwd p.tmp) := by
  obtain ⟨front, n, hcomps, hn⟩ := h
  exact ⟨resolve cwd ⟨p.absolute, front⟩, n, resolve_file hcomps hn cwd, resolve_tmp hcomps cwd⟩

variable {bin tmp bin' tmp' upper : List Name}

theorem name_ne_tmp (n : Name) : n ≠ n ++ ".tmp" := by
  intro h
  have hlength := congrArg String.length h
  rw [length_tmp] at hlength
  omega

theorem Sibling.ne (h : Sibling bin tmp) : bin ≠ tmp := by
  obtain ⟨d, n, rfl, rfl⟩ := h
  intro heq
  exact name_ne_tmp n (List.singleton_inj.mp (append_cancel_left heq))

theorem resolve_ne_tmp (h : p.NamesFile) (cwd cwd' : List Name) :
    resolve cwd p ≠ resolve cwd' p.tmp := by
  obtain ⟨front, n, hcomps, hn⟩ := h
  intro heq
  rw [resolve_file hcomps hn cwd, resolve_tmp hcomps cwd'] at heq
  exact name_ne_tmp n (List.singleton_inj.mp (append_inj' heq rfl).2)

section

variable (h : Sibling bin tmp)
include h

theorem Sibling.ne_nil : tmp ≠ [] := by
  obtain ⟨d, n, -, rfl⟩ := h
  exact append_ne_nil_of_right_ne_nil _ (cons_ne_nil _ _)

theorem Sibling.length : bin.length = tmp.length := by
  obtain ⟨d, n, rfl, rfl⟩ := h
  rw [length_append, length_append]
  rfl

theorem Sibling.not_prefix : ¬tmp <+: bin :=
  fun hbegin => h.ne (hbegin.eq_of_length h.length.symm).symm

theorem Sibling.not_prefix' : ¬bin <+: tmp :=
  fun hbegin => h.ne (hbegin.eq_of_length h.length)

theorem Sibling.unique (h' : Sibling bin' tmp') : bin = bin' ↔ tmp = tmp' := by
  obtain ⟨d, n, rfl, rfl⟩ := h
  obtain ⟨d', n', rfl, rfl⟩ := h'
  constructor
  · intro h
    obtain ⟨hd, hn⟩ := append_inj' h rfl
    rw [hd, List.singleton_inj.mp hn]
  · intro h
    obtain ⟨hd, hn⟩ := append_inj' h rfl
    have hname : n = n' := String.append_left_inj ".tmp" |>.mp (List.singleton_inj.mp hn)
    rw [hd, hname]

end

/-! ## What the steps touch -/

variable {s : PersistSteps} {disk d d' : Node} {f : Change Name Bytes} {b old : Bytes} {p q : List Name}

theorem tried_touches (hf : KeepsWf f) (p : List Name) (d : Node) : Touches [p] d (tried f p d) := by
  unfold tried
  cases h : sys f p d with
  | error e => exact .refl _ d
  | ok d' => exact sys_touches hf h

theorem leave_touches (left : Option Bytes) (p : List Name) (d : Node) :
    Touches [p] d (leave left p d) := by
  cases left with
  | none => exact .refl _ d
  | some b => exact tried_touches (creat_keepsWf b) p d

theorem cleanup_touches (tmp staging : List Name) (d : Node) :
    Touches [tmp, staging] d (tried unlink tmp (tried removeTree staging d)) := by
  have hstaging := tried_touches removeTree_keepsWf staging d
  have htmp := tried_touches unlink_keepsWf tmp (tried removeTree staging d)
  exact (hstaging.mono (by simp)).trans (htmp.mono (by simp))

abbrev HasFile (p : List Name) (b : Bytes) (d : Node) : Prop := look (some d) p = some (.file b)

theorem look_creat (h : sys (creat b) p d = .ok d') : HasFile p b d' := by
  obtain ⟨-, r, hr, hsub, -⟩ := sys_changed h
  unfold HasFile look
  rw [hsub, creat_eq hr]
  rfl

abbrev Failed (ps : List (List Name)) (d : Node) (code : ExitCode) (d' : Node) : Prop :=
  code ≠ EX_OK ∧ Touches ps d d'

theorem copyBinary_ends (s : PersistSteps) (bin tmp : List Name) (disk : Node) :
    Ends (fun d => ∃ old, fileAt disk bin = some old ∧ HasFile tmp old d ∧ Touches [tmp] disk d)
      (Failed [tmp] disk) (copyBinary s bin tmp disk) := by
  unfold copyBinary
  split
  · exact ⟨by decide, leave_touches _ tmp disk⟩
  · rename_i b hcopy hsub
    cases h : sys (creat b) tmp disk with
    | error e => exact ⟨by decide, .refl _ disk⟩
    | ok d =>
      refine ⟨b, ?_, look_creat h, sys_touches (creat_keepsWf b) h⟩
      unfold fileAt
      rw [hsub]
  · exact ⟨by decide, tried_touches (creat_keepsWf []) tmp disk⟩
  · exact ⟨by decide, .refl _ disk⟩

def barePart (size : Nat) (old : Bytes) : Bytes := old.take size ++ List.replicate (size - old.length) 0

theorem attempt_ok {α : Type} {works : Bool} {r : Except Errno α} {a : α}
    (h : attempt works r = .ok a) : works = true ∧ r = .ok a := by
  unfold attempt at h
  split_ifs at h with hworks
  exact ⟨hworks, h⟩

theorem exists_file (h : HasFile p b d) : sub (some d) p = some (.file b) := by
  have hfile := fileAt_eq_some.mpr h
  unfold fileAt at hfile
  split at hfile
  · rename_i b' hb
    rw [hb, Option.some.inj hfile]
  · nomatch hfile

theorem stripZip_ends (s : PersistSteps) (size : Nat) (htmp : HasFile tmp old d) :
    Ends (fun d' => HasFile tmp (barePart size old) d' ∧ Touches [tmp] d d')
      (Failed [tmp] d) (stripZip s size tmp d) := by
  unfold stripZip
  cases h : attempt s.truncate (sys (truncate size) tmp d) with
  | error e => exact ⟨by decide, tried_touches unlink_keepsWf tmp d⟩
  | ok d' =>
    have hsys := (attempt_ok h).2
    refine ⟨?_, sys_touches (truncate_keepsWf size) hsys⟩
    obtain ⟨-, r, hr, hsub, -⟩ := sys_changed hsys
    rw [exists_file htmp] at hr
    cases hr
    unfold HasFile look
    rw [hsub]
    rfl

theorem makeStaging_ends (s : PersistSteps) (tmp : List Name) (d : Node) :
    Ends (fun d' => look (some d) s.staging = none ∧ look (some d') s.staging = some .dir ∧
        Touches [s.staging] d d')
      (Failed [tmp] d) (makeStaging s tmp d) := by
  unfold makeStaging
  cases h : attempt s.mkdtemp (sys mkdir s.staging d) with
  | error e => exact ⟨by decide, tried_touches unlink_keepsWf tmp d⟩
  | ok d' =>
    have hsys := (attempt_ok h).2
    obtain ⟨-, r, hr, hsub, -⟩ := sys_changed hsys
    obtain ⟨hnone, hdir⟩ := mkdir_eq hr
    refine ⟨?_, ?_, sys_touches mkdir_keepsWf hsys⟩
    · unfold look
      rw [hnone]
      rfl
    · unfold look
      rw [hsub, hdir]
      rfl

theorem wf_stage {backend : OverlayBackend} {zip upper : Option Node} {merged : Node}
    (h : stage backend zip upper = .ok merged) : Wf (some merged) := by
  unfold stage at h
  split_ifs at h
  · exact wf_copyDirectoryRecursive (wf_emptyDir false) h
  · split at h
    · nomatch h
    · rename_i base hbase
      exact wf_copyDirectoryRecursive (wf_copyDirectoryRecursive (wf_emptyDir false) hbase) h

theorem mergeContent_ends (s : PersistSteps) (backend : OverlayBackend) (zip : Option Node)
    (upper tmp : List Name) (d : Node) :
    Ends (fun d' => ∃ merged, stage backend zip (sub (some d) upper) = .ok merged ∧
        sub (some d') s.staging = some merged ∧ Touches [s.staging] d d')
      (Failed [tmp, s.staging] d) (mergeContent s backend zip upper tmp d) := by
  unfold mergeContent
  cases h : attempt s.merge (stage backend zip (sub (some d) upper)) with
  | error e => exact ⟨by decide, cleanup_touches tmp s.staging d⟩
  | ok merged =>
    have hstage := (attempt_ok h).2
    have hwf := wf_stage hstage
    dsimp only
    cases hsys : sys (fun _ => .ok (some merged)) s.staging d with
    | error e => exact ⟨by decide, cleanup_touches tmp s.staging d⟩
    | ok d' =>
      obtain ⟨-, r, hr, hsub, -⟩ := sys_changed hsys
      refine ⟨merged, hstage, hsub.trans (Except.ok.inj hr).symm, sys_touches ?_ hsys⟩
      intro t r _ hr
      rw [← Except.ok.inj hr]
      exact hwf

theorem enterStaging_ends (s : PersistSteps) (tmp : List Name) (d : Node) :
    Ends (fun d' => d' = d) (Failed [tmp, s.staging] d) (enterStaging s tmp d) := by
  unfold enterStaging
  split_ifs
  · exact rfl
  · exact ⟨by decide, cleanup_touches tmp s.staging d⟩

/-! ## Up to `chdir` -/

/-- What there is when the working directory is the staging directory. -/
structure Prepared (s : PersistSteps) (proc : Proc) (sf : ToasterStateFile) (bin tmp : List Name)
    (disk d : Node) : Prop where
  apartBin : ¬s.staging <+: bin
  apartTmp : ¬s.staging <+: tmp
  stripped : ∃ old, fileAt disk bin = some old ∧
    look (some d) tmp = some (.file (barePart (readBareSize proc.zip).toNat old))
  staged : ∃ merged mid, sub (some d) s.staging = some merged ∧
    stage sf.backend proc.zip (sub (some mid) (resolve proc.cwd sf.upperPath)) = .ok merged ∧
    Touches [tmp, s.staging] disk mid
  touches : Touches [tmp, s.staging] disk d

theorem prepare_ends (s : PersistSteps) (proc : Proc) (sf : ToasterStateFile) (disk : Node)
    (hsibling : Sibling (resolve proc.cwd sf.binaryPath) (resolve proc.cwd sf.binaryPath.tmp)) :
    Ends (Prepared s proc sf (resolve proc.cwd sf.binaryPath) (resolve proc.cwd sf.binaryPath.tmp) disk)
      (fun code d => code ≠ EX_OK ∧ look (some d) (resolve proc.cwd sf.binaryPath) =
        look (some disk) (resolve proc.cwd sf.binaryPath) ∧
        Touches [resolve proc.cwd sf.binaryPath.tmp, s.staging] disk d)
      (prepare s proc sf disk) := by
  unfold prepare
  dsimp only
  generalize resolve proc.cwd sf.binaryPath = bin at hsibling ⊢
  generalize resolve proc.cwd sf.binaryPath.tmp = tmp at hsibling ⊢
  have hbin : ∀ p ∈ [tmp], ¬p <+: bin := List.forall_mem_singleton.mpr hsibling.not_prefix
  have hstart := Touches.refl [tmp, s.staging] disk
  refine ends_check ⟨by decide, rfl, hstart⟩ (ends_check ⟨by decide, rfl, hstart⟩
    (ends_check ⟨by decide, rfl, hstart⟩ (ends_check ⟨by decide, rfl, hstart⟩ ?_)))
  refine ((copyBinary_ends s bin tmp disk).mono (fun _ h => h) ?_).bind ?_
  · exact fun code d h => ⟨h.1, h.2.outside bin hbin, h.2.mono (by simp)⟩
  rintro d₁ ⟨old, hold, htmp₁, ht₁⟩
  refine ((stripZip_ends s _ htmp₁).mono (fun _ h => h) ?_).bind ?_
  · exact fun code d h => ⟨h.1, (ht₁.trans h.2).outside bin hbin, (ht₁.trans h.2).mono (by simp)⟩
  rintro d₂ ⟨htmp₂, ht₂⟩
  refine ((makeStaging_ends s tmp d₂).mono (fun _ h => h) ?_).bind ?_
  · intro code d h
    have hall := (ht₁.trans ht₂).trans h.2
    exact ⟨h.1, hall.outside bin hbin, hall.mono (by simp)⟩
  rintro d₃ ⟨hnone, hdir, ht₃⟩
  -- the staging directory is new, so no file that is there already is in it
  have hnew : ∀ {q x}, look (some d₂) q = some x → ¬s.staging <+: q := by
    rintro q x hq ⟨rest, rfl⟩
    cases rest with
    | nil => rw [append_nil, hnone] at hq; cases hq
    | cons n rest =>
      have hparent : look (some d₂) s.staging = some .dir :=
        look_eq_dir_of_child (by rw [hq]; exact fun h => by cases h)
      rw [hnone] at hparent
      cases hparent
  have hbin₂ : HasFile bin old d₂ := by
    rw [HasFile, (ht₁.trans ht₂).outside bin hbin]
    exact fileAt_eq_some.mp hold
  have hapartBin := hnew hbin₂
  have hapartTmp := hnew htmp₂
  have hbin' : ∀ p ∈ [tmp, s.staging], ¬p <+: bin :=
    List.forall_mem_cons.mpr ⟨ hsibling.not_prefix, List.forall_mem_singleton.mpr hapartBin⟩
  have htmp' : ∀ p ∈ [s.staging], ¬p <+: tmp := List.forall_mem_singleton.mpr hapartTmp
  have ht : Touches [tmp, s.staging] disk d₃ :=
    ((ht₁.trans ht₂).mono (by simp)).trans (ht₃.mono (by simp))
  refine ((mergeContent_ends s sf.backend proc.zip _ tmp d₃).mono (fun _ h => h) ?_).bind ?_
  · exact fun code d h => ⟨h.1, (ht.trans h.2).outside bin hbin', ht.trans h.2⟩
  rintro d₄ ⟨merged, hstage, hmerged, ht₄⟩
  refine (enterStaging_ends s tmp d₄).mono ?_ ?_
  · rintro d rfl
    refine ⟨hapartBin, hapartTmp, ⟨old, hold, ?_⟩, ⟨merged, d₃, hmerged, hstage, ht⟩, ?_⟩
    · rw [ht₄.outside tmp htmp', ht₃.outside tmp htmp', htmp₂]
    · exact ht.trans (ht₄.mono (by simp))
  · intro code d h
    have hall := (ht.trans (ht₄.mono (by simp))).trans h.2
    exact ⟨h.1, hall.outside bin hbin', hall⟩

/-! ## From `chdir` on -/

section

variable (hp : p ≠ []) (h : HasFile p b d)
include hp h

theorem sys_file {r : Option Node}
    (hf : f (some (.file b)) = .ok r) : ∃ d', sys f p d = .ok d' ∧ sub (some d') p = r := by
  have hparent : look (some d) p.dropLast = some .dir := by
    apply look_eq_dir_of_child (n := p.getLast hp) (q := [])
    rw [dropLast_append_getLast hp, h]
    exact fun h => nomatch h
  obtain ⟨d', hd'⟩ := sys_ok hp hparent (exists_file h ▸ hf)
  refine ⟨d', hd', ?_⟩
  obtain ⟨-, r', hr', hsub, -⟩ := sys_changed hd'
  rw [exists_file h, hf] at hr'
  rw [hsub, Except.ok.inj hr']

theorem look_tried_file {r : Option Node}
    (hf : f (some (.file b)) = .ok r) : look (some (tried f p d)) p = r.map FileTree.leaf := by
  obtain ⟨d', hd', hsub⟩ := sys_file hp h hf
  unfold tried look
  rw [hd']
  dsimp only
  rw [hsub]

theorem look_tried_unlink : look (some (tried unlink p d)) p = none :=
  look_tried_file (f := unlink) hp h rfl

theorem look_leave (left : Option Bytes) : ∃ b', HasFile p b' (leave left p d) := by
  cases left with
  | none => exact ⟨b, h⟩
  | some b' => exact ⟨b', look_tried_file (f := creat b') hp h rfl⟩

end

theorem append_keepsWf (a : Bytes) : KeepsWf (append a) := by
  intro t r _ h
  unfold append at h
  split at h
  · cases h
    exact wf_file _
  · cases h
    exact wf_file _
  · cases h
  · cases h

variable {archive : Node → Bytes} {merged : Node}

theorem embed_ends (s : PersistSteps) (hp : tmp ≠ []) (happart : ¬s.staging <+: tmp)
    (htmp : HasFile tmp b d) (hmerged : sub (some d) s.staging = some merged) :
    Ends (fun d' => HasFile tmp (b ++ archive merged) d' ∧ Touches [tmp, s.staging] d d')
      (fun code d' => code ≠ EX_OK ∧ look (some d') tmp = none ∧ Touches [tmp, s.staging] d d')
      (embed archive s tmp d) := by
  have hremoved : ∀ d', look (some (tried removeTree s.staging d')) tmp = look (some d') tmp := by
    intro d'
    apply (tried_touches removeTree_keepsWf s.staging d').outside
    exact List.forall_mem_singleton.mpr happart
  unfold embed
  rw [hmerged]
  cases s.zipFails with
  | some left =>
    refine ⟨by decide, ?_, ?_⟩
    · obtain ⟨b', hb'⟩ := look_leave hp htmp left
      exact look_tried_unlink hp ((hremoved _).trans hb')
    · exact ((leave_touches left tmp d).mono (by simp)).trans (cleanup_touches tmp s.staging _)
  | none =>
    obtain ⟨d', hd', hsub⟩ := sys_file (f := append (archive merged)) hp htmp rfl
    dsimp only
    rw [hd']
    refine ⟨?_, ?_⟩
    · rw [HasFile, hremoved]
      unfold look
      rw [hsub]
      rfl
    · have hstaging := tried_touches removeTree_keepsWf s.staging d'
      exact ((sys_touches (append_keepsWf _) hd').mono (by simp)).trans (hstaging.mono (by simp))

theorem swap_ends (s : PersistSteps) (hsibling : Sibling bin tmp) (htmp : HasFile tmp b d) :
    Ends (fun d' => HasFile bin b d' ∧ look (some d') tmp = none ∧ Touches [tmp, bin] d d')
      (fun code d' => code ≠ EX_OK ∧ look (some d') tmp = none ∧ Touches [tmp] d d')
      (swap s tmp bin d) := by
  unfold swap
  cases h : attempt s.rename (rename tmp bin d) with
  | error e =>
    exact ⟨by decide, look_tried_unlink hsibling.ne_nil htmp, tried_touches unlink_keepsWf tmp d⟩
  | ok d' =>
    obtain ⟨b', mid, hb', hmid, hd'⟩ := rename_ok (attempt_ok h).2
    have heq : b' = b := by
      rw [fileAt_eq_some.mpr htmp] at hb'
      exact (Option.some.inj hb').symm
    rw [heq] at hd'
    have ht := sys_touches unlink_keepsWf hmid
    have ht' := sys_touches (install_keepsWf (wf_file b)) hd'
    obtain ⟨-, r, hr, hsub, -⟩ := sys_changed hmid
    obtain ⟨-, r', hr', hsub', -⟩ := sys_changed hd'
    refine ⟨?_, ?_, (ht.mono (by simp)).trans (ht'.mono (by simp))⟩
    · unfold install at hr'
      split at hr'
      · cases hr'
      · unfold HasFile look
        rw [hsub', ← Except.ok.inj hr']
        rfl
    · rw [ht'.outside tmp ?_]
      · unfold look
        rw [hsub, unlink_eq hr]
        rfl
      · exact List.forall_mem_singleton.mpr hsibling.not_prefix'

theorem finish_ends {proc : Proc} {sf : ToasterStateFile} (hsibling : Sibling bin tmp)
    (h : Prepared s proc sf bin tmp disk d) (hbin : resolve s.staging sf.binaryPath = bin)
    (htmp : resolve s.staging sf.binaryPath.tmp = tmp) :
    Ends (fun d' => (∃ old merged mid, fileAt disk bin = some old ∧ Touches [tmp, s.staging] disk mid ∧
          stage sf.backend proc.zip (sub (some mid) (resolve proc.cwd sf.upperPath)) = .ok merged ∧
          look (some d') bin =
            some (.file (barePart (readBareSize proc.zip).toNat old ++ archive merged))) ∧
        look (some d') tmp = none ∧ Touches [tmp, s.staging, bin] disk d')
      (fun code d' => code ≠ EX_OK ∧ look (some d') bin = look (some disk) bin ∧
        look (some d') tmp = none ∧ Touches [tmp, s.staging] disk d')
      (finish archive s sf d) := by
  obtain ⟨old, hold, hstripped⟩ := h.stripped
  obtain ⟨merged, mid, hmerged, hstage, hmid⟩ := h.staged
  have hkept {d'} (ht : Touches [tmp, s.staging] disk d') : look (some d') bin = look (some disk) bin :=
    ht.outside bin (List.forall_mem_cons.mpr ⟨ hsibling.not_prefix, List.forall_mem_singleton.mpr h.apartBin⟩)
  unfold finish
  dsimp only
  rw [hbin, htmp]
  refine ((embed_ends s hsibling.ne_nil h.apartTmp hstripped hmerged).mono (fun _ hd => hd) ?_).bind ?_
  · rintro code d' ⟨hcode, hnone, ht⟩
    exact ⟨hcode, hkept (h.touches.trans ht), hnone, h.touches.trans ht⟩
  rintro d₁ ⟨hfile, ht⟩
  have ht₁ := h.touches.trans ht
  refine (swap_ends s hsibling hfile).mono ?_ ?_
  · rintro d' ⟨hnew, hnone, ht'⟩
    refine ⟨⟨old, merged, mid, hold, hmid, hstage, hnew⟩, hnone, ?_⟩
    exact (ht₁.mono (by simp)).trans (ht'.mono (by simp))
  · rintro code d' ⟨hcode, hnone, ht'⟩
    have htouch := ht₁.trans (ht'.mono (by simp))
    exact ⟨hcode, hkept htouch, hnone, htouch⟩

/-! ## Where the path means another file -/

theorem look_tried {x : Leaf Bytes} (hf : RefusesDir f) (hne : p ≠ q) (hq : look (some d) q = some x) :
    look (some (tried f p d)) q = some x := by
  unfold tried
  cases h : sys f p d with
  | error e => exact hq
  | ok d' => exact look_of_refusesDir hf h hne hq

theorem append_refusesDir (a : Bytes) : RefusesDir (append a) := fun _ _ _ h => nomatch h

theorem finish_leaves {sf : ToasterStateFile} (hq : HasFile q b d)
    (happart : ¬s.staging <+: q) (htmp : resolve s.staging sf.binaryPath.tmp ≠ q)
    (hbin : resolve s.staging sf.binaryPath ≠ q) :
    Ends (HasFile q b) (fun _ => HasFile q b) (finish archive s sf d) := by
  unfold finish
  dsimp only
  generalize resolve s.staging sf.binaryPath.tmp = tmp at htmp ⊢
  generalize resolve s.staging sf.binaryPath = bin at hbin ⊢
  -- each call is on another path, and none of them is made to a directory
  have hremoved : ∀ {d'}, HasFile q b d' → HasFile q b (tried removeTree s.staging d') := by
    intro d' hd'
    rw [HasFile, (tried_touches removeTree_keepsWf s.staging d').outside, hd']
    exact List.forall_mem_singleton.mpr happart
  have hembed : Ends (HasFile q b) (fun _ => HasFile q b) (embed archive s tmp d) := by
    unfold embed
    cases s.zipFails with
    | some left =>
      have hleft : HasFile q b (leave left tmp d) := by
        cases left with
        | none => exact hq
        | some c => exact look_tried (creat_refusesDir c) htmp hq
      exact look_tried unlink_refusesDir htmp (hremoved hleft)
    | none =>
      cases hmerged : sub (some d) s.staging with
      | none => exact look_tried unlink_refusesDir htmp (hremoved hq)
      | some merged =>
        dsimp only
        cases hsys : sys (append (archive merged)) tmp d with
        | error e => exact look_tried unlink_refusesDir htmp (hremoved hq)
        | ok d' =>
          apply hremoved
          exact look_of_refusesDir (append_refusesDir _) hsys htmp hq
  refine hembed.bind ?_
  intro d₁ hd₁
  unfold swap
  cases h : attempt s.rename (rename tmp bin d₁) with
  | error e => exact look_tried unlink_refusesDir htmp hd₁
  | ok d' =>
    obtain ⟨c, mid, -, hmid, hd'⟩ := rename_ok (attempt_ok h).2
    have hlook := look_of_refusesDir unlink_refusesDir hmid htmp hd₁
    exact look_of_refusesDir (install_refusesDir _) hd' hbin hlook

/-! ## Which runs get to `chdir` -/

structure ReachesChdir (s : PersistSteps) (proc : Proc) (sf : ToasterStateFile) (disk : Node) :
    Prop where
  file : s.file.derive = true ∧ s.file.openFile = true ∧ s.file.parse = true
  state : kTransitionTable sf.state kActionPersist ≠ none
  upper : sf.upperPath ≠ .empty
  stat : s.stat = true ∧ (sub (some disk) (resolve proc.cwd sf.upperPath)).isSome = true
  bareSize : 0 < readBareSize proc.zip
  works : s.snprintf = true ∧ s.copyFails = none ∧ s.truncate = true ∧ s.mkdtemp = true ∧
    s.merge = true ∧ s.chdir = true
  calls : ∃ old d₁ d₂ d₃ d₄ merged,
    fileAt disk (resolve proc.cwd sf.binaryPath) = some old ∧
    sys (creat old) (resolve proc.cwd sf.binaryPath.tmp) disk = .ok d₁ ∧
    sys (truncate (readBareSize proc.zip).toNat) (resolve proc.cwd sf.binaryPath.tmp) d₁ = .ok d₂ ∧
    sys mkdir s.staging d₂ = .ok d₃ ∧
    stage sf.backend proc.zip (sub (some d₃) (resolve proc.cwd sf.upperPath)) = .ok merged ∧
    sys (fun _ => .ok (some merged)) s.staging d₃ = .ok d₄

variable {proc : Proc} {sf : ToasterStateFile}

theorem copyBinary_eq_ok : copyBinary s bin tmp disk = .ok d ↔
    s.copyFails = none ∧ ∃ old, fileAt disk bin = some old ∧ sys (creat old) tmp disk = .ok d := by
  unfold copyBinary fileAt
  cases s.copyFails with
  | some left => simp
  | none =>
    rcases sub (some disk) bin with _ | (b | _ | _)
    case some.file => cases hsys : sys (creat b) tmp disk <;> simp [hsys]
    all_goals simp

theorem stripZip_eq_ok {size : Nat} : stripZip s size tmp disk = .ok d ↔
    s.truncate = true ∧ sys (truncate size) tmp disk = .ok d := by
  unfold stripZip attempt
  cases s.truncate <;> cases sys (truncate size) tmp disk <;> simp

theorem makeStaging_eq_ok : makeStaging s tmp disk = .ok d ↔
    s.mkdtemp = true ∧ sys mkdir s.staging disk = .ok d := by
  unfold makeStaging attempt
  cases s.mkdtemp <;> cases sys mkdir s.staging disk <;> simp

theorem mergeContent_eq_ok {backend : OverlayBackend} {zip : Option Node} {upper : List Name} :
    mergeContent s backend zip upper tmp disk = .ok d ↔ s.merge = true ∧
      ∃ merged, stage backend zip (sub (some disk) upper) = .ok merged ∧
        sys (fun _ => .ok (some merged)) s.staging disk = .ok d := by
  unfold mergeContent attempt
  cases s.merge <;> cases stage backend zip (sub (some disk) upper) with
  | error e => simp
  | ok merged => cases hsys : sys (fun _ => .ok (some merged)) s.staging disk <;> simp [hsys]

theorem prepare_iff_reaches (hfile : s.file.derive = true ∧ s.file.openFile = true ∧ s.file.parse = true)
    (hstate : kTransitionTable sf.state kActionPersist ≠ none) :
    (∃ d, prepare s proc sf disk = .ok d) ↔ ReachesChdir s proc sf disk := by
  unfold prepare
  simp only [check_eq_ok_iff, bind_eq_ok_iff, copyBinary_eq_ok, stripZip_eq_ok, makeStaging_eq_ok,
    mergeContent_eq_ok, enterStaging]
  constructor
  · rintro ⟨d, hupper, hstat, hsize, hpath, d₁, ⟨hcopy, old, hold, h₁⟩, d₂, ⟨htruncate, h₂⟩, d₃, ⟨hmkdtemp, h₃⟩,
      d₄, ⟨hmerge, merged, hstage, h₄⟩, hchdir⟩
    refine ⟨hfile, hstate, hupper, ?_, not_le.mp hsize, ⟨by simpa using hpath, hcopy, htruncate, hmkdtemp, hmerge, ?_⟩,
      ⟨old, d₁, d₂, d₃, d₄, merged, hold, h₁, h₂, h₃, hstage, h₄⟩⟩
    · simpa [Option.isSome_iff_ne_none] using hstat
    · split_ifs at hchdir with h
      exact h
  · intro h
    obtain ⟨old, d₁, d₂, d₃, d₄, merged, hold, h₁, h₂, h₃, hstage, h₄⟩ := h.calls
    obtain ⟨hpath, hcopy, htruncate, hmkdtemp, hmerge, hchdir⟩ := h.works
    refine ⟨d₄, h.upper, ?_, not_le.mpr h.bareSize, by simp [hpath], d₁, ⟨hcopy, old, hold, h₁⟩, d₂, ⟨htruncate, h₂⟩, d₃,
      ⟨hmkdtemp, h₃⟩, d₄, ⟨hmerge, merged, hstage, h₄⟩, if_pos hchdir⟩
    simp [h.stat.1, ← Option.not_isSome, h.stat.2]

/-! ## The guarantee -/

section

variable (archive : Node → Bytes) (s : PersistSteps) (proc : Proc) (sf : ToasterStateFile) (disk : Node)

/-- The binary is its bare part and the archive of what was merged: of the upper layer as it is on a
disk that has changed only at the copy of the binary and the staging directory. -/
def Replaced (d : Node) : Prop :=
  ∃ old merged mid, fileAt disk (resolve proc.cwd sf.binaryPath) = some old ∧
    Touches [resolve proc.cwd sf.binaryPath.tmp, s.staging] disk mid ∧
    stage sf.backend proc.zip (sub (some mid) (resolve proc.cwd sf.upperPath)) = .ok merged ∧
    look (some d) (resolve proc.cwd sf.binaryPath) =
      some (.file (barePart (readBareSize proc.zip).toNat old ++ archive merged))

/-- What is promised of a `Persist` that finds the disk and the state file. -/
structure Atomically : Prop where
  /-- The binary keeps its content if the last step is not made. -/
  kept : (persist archive s proc ⟨disk, some sf.doc⟩).1 ≠ EX_OK →
    look (some (persist archive s proc ⟨disk, some sf.doc⟩).2.disk) (resolve proc.cwd sf.binaryPath) =
      look (some disk) (resolve proc.cwd sf.binaryPath)
  replaced : (persist archive s proc ⟨disk, some sf.doc⟩).1 = EX_OK →
    Replaced archive s proc sf disk (persist archive s proc ⟨disk, some sf.doc⟩).2.disk
  stateKept : (persist archive s proc ⟨disk, some sf.doc⟩).1 ≠ EX_OK →
    (persist archive s proc ⟨disk, some sf.doc⟩).2.stateFile = some sf.doc
  /-- An absolute path of the same file makes no difference. -/
  spelling : ∀ q : PathName, q.absolute = true → q.NamesFile →
    resolve proc.cwd q = resolve proc.cwd sf.binaryPath →
    let r := persist archive s proc ⟨disk, some sf.doc⟩
    let r' := persist archive s proc ⟨disk, some { sf with binaryPath := q }.doc⟩
    r'.1 = r.1 ∧ Same (some r'.2.disk) (some r.2.disk) ∧
      recorded r'.2.stateFile = recorded r.2.stateFile

end

theorem loadFor_doc (t : FileSteps) (action : ToasterAction) (sf : ToasterStateFile) (disk : Node) :
    loadFor t proc action ⟨disk, some sf.doc⟩ =
      if t.derive then
        if t.openFile && t.parse then
          (kTransitionTable sf.state action).elim (.error EX_USAGE) fun next => .ok (sf, next)
        else .error EX_IOERR
      else .error EX_SOFTWARE := by
  unfold loadFor loadStateFile
  dsimp only
  rw [read_doc]
  cases hnext : kTransitionTable sf.state action with
  | none | some next =>
    have htransition : toasterTransition sf.state action = _ := hnext
    cases t.derive <;> cases t.openFile <;> cases t.parse <;> simp [htransition]

abbrev ToasterStateFile.spelled (sf : ToasterStateFile) (q : PathName) : ToasterStateFile :=
  { sf with binaryPath := q }

/-- A head that goes on, or returns with a code that does not depend on the path of the binary. -/
theorem loadFor_cases (proc : Proc) (t : FileSteps) (action : ToasterAction) (sf : ToasterStateFile)
    (disk : Node) :
    (∃ code, code ≠ EX_OK ∧ ∀ q : PathName,
        loadFor t proc action ⟨disk, some (sf.spelled q).doc⟩ = .error code) ∨
      ∃ next, (t.derive = true ∧ t.openFile = true ∧ t.parse = true) ∧
        kTransitionTable sf.state action = some next ∧ ∀ q : PathName,
          loadFor t proc action ⟨disk, some (sf.spelled q).doc⟩ =
            .ok (sf.spelled q, next) := by
  have hdoc q := @loadFor_doc proc t action (sf.spelled q) disk
  by_cases hderive : t.derive = true
  · by_cases hread : (t.openFile && t.parse) = true
    · simp only [if_pos hderive, if_pos hread] at hdoc
      cases hnext : kTransitionTable sf.state action with
      | none =>
        rw [hnext] at hdoc
        exact Or.inl ⟨EX_USAGE, by decide, hdoc⟩
      | some next =>
        rw [hnext] at hdoc
        exact Or.inr ⟨next, ⟨hderive, (Bool.and_eq_true _ _).mp hread⟩, rfl, hdoc⟩
    · simp only [if_pos hderive, if_neg hread] at hdoc
      exact Or.inl ⟨EX_IOERR, by decide, hdoc⟩
  · simp only [if_neg hderive] at hdoc
    exact Or.inl ⟨EX_SOFTWARE, by decide, hdoc⟩

def persistFrom (archive : Node → Bytes) (s : PersistSteps) (proc : Proc) (sf : ToasterStateFile)
    (next : ToasterState) (disk : Node) : ExitCode × World :=
  match prepare s proc sf disk >>= finish archive s sf with
  | .error (code, d) => (code, ⟨d, some sf.doc⟩)
  | .ok d => (EX_OK, ⟨d, (saveStateFile s.file { sf with state := next } (some sf.doc)).1⟩)

variable {next : ToasterState}

theorem persist_eq (h : loadFor s.file proc kActionPersist ⟨disk, some sf.doc⟩ = .ok (sf, next)) :
    persist archive s proc ⟨disk, some sf.doc⟩ = persistFrom archive s proc sf next disk := by
  unfold persist
  rw [h]
  rfl

variable {code : ExitCode}

theorem persist_refused (h : loadFor s.file proc kActionPersist ⟨disk, some sf.doc⟩ = .error code) :
    persist archive s proc ⟨disk, some sf.doc⟩ = (code, ⟨disk, some sf.doc⟩) := by
  unfold persist
  rw [h]

theorem resolve_absolute {q : PathName} (h : q.absolute = true) (cwd cwd' : List Name) :
    resolve cwd q = resolve cwd' q := by
  unfold resolve
  rw [h]
  rfl

theorem prepare_spelling {q : PathName} (hq : q.NamesFile) (hp : sf.binaryPath.NamesFile)
    (h : resolve proc.cwd q = resolve proc.cwd sf.binaryPath) (disk : Node) :
    prepare s proc (sf.spelled q) disk = prepare s proc sf disk := by
  have htmp := (resolve_sibling hq proc.cwd).unique (resolve_sibling hp proc.cwd) |>.mp h
  unfold prepare
  dsimp only
  rw [h, htmp]

theorem persistFrom_error (h : prepare s proc sf disk >>= finish archive s sf = .error (code, d)) :
    persistFrom archive s proc sf next disk = (code, ⟨d, some sf.doc⟩) := by
  unfold persistFrom
  rw [h]

theorem persistFrom_ok (h : prepare s proc sf disk >>= finish archive s sf = .ok d) :
    persistFrom archive s proc sf next disk =
      (EX_OK, ⟨d, (saveStateFile s.file { sf with state := next } (some sf.doc)).1⟩) := by
  unfold persistFrom
  rw [h]

theorem recorded_save (t : FileSteps) (sf : ToasterStateFile) (q : PathName) (next : ToasterState) :
    recorded (saveStateFile t { sf with binaryPath := q, state := next }
        (some (sf.spelled q).doc)).1 =
      recorded (saveStateFile t { sf with state := next } (some sf.doc)).1 := by
  unfold saveStateFile
  split_ifs <;> rw [recorded_doc, recorded_doc]

abbrev SameOutcome (r' r : ExitCode × World) : Prop :=
  r'.1 = r.1 ∧ Same (some r'.2.disk) (some r.2.disk) ∧ recorded r'.2.stateFile = recorded r.2.stateFile

/-- Two spellings of the path that mean the same before and after `chdir` have the same outcome. -/
theorem persistFrom_spelling {q : PathName} (h : prepare s proc (sf.spelled q) disk >>=
        finish archive s (sf.spelled q) =
      prepare s proc sf disk >>= finish archive s sf) :
    SameOutcome (persistFrom archive s proc (sf.spelled q) next disk)
      (persistFrom archive s proc sf next disk) := by
  cases hrun : prepare s proc sf disk >>= finish archive s sf with
  | error e =>
    obtain ⟨code, d⟩ := e
    rw [persistFrom_error hrun, persistFrom_error (h.trans hrun)]
    refine ⟨rfl, fun p => rfl, ?_⟩
    rw [recorded_doc, recorded_doc]
  | ok d =>
    rw [persistFrom_ok hrun, persistFrom_ok (h.trans hrun)]
    exact ⟨rfl, fun p => rfl, recorded_save s.file sf q next⟩

def MeansSame (s : PersistSteps) (proc : Proc) (p : PathName) : Prop :=
  resolve s.staging p = resolve proc.cwd p

theorem atomically_refused (hcode : code ≠ EX_OK)
    (h : ∀ q : PathName, persist archive s proc ⟨disk, some (sf.spelled q).doc⟩ =
      (code, ⟨disk, some (sf.spelled q).doc⟩)) : Atomically archive s proc sf disk := by
  have hrun : persist archive s proc ⟨disk, some sf.doc⟩ = (code, ⟨disk, some sf.doc⟩) :=
    h sf.binaryPath
  refine ⟨fun _ => by rw [hrun], ?_, fun _ => by rw [hrun], ?_⟩
  · intro hok
    rw [hrun] at hok
    exact absurd hok hcode
  · intro q _ _ _
    dsimp only
    rw [hrun, h q]
    refine ⟨rfl, fun p => rfl, ?_⟩
    rw [recorded_doc, recorded_doc]

theorem look_persistFrom {x : Option (Leaf Bytes)}
    (h : Ends (fun d => look (some d) p = x) (fun _ d => look (some d) p = x)
      (prepare s proc sf disk >>= finish archive s sf)) :
    look (some (persistFrom archive s proc sf next disk).2.disk) p = x := by
  cases hsteps : prepare s proc sf disk >>= finish archive s sf with
  | error e =>
    obtain ⟨code, d⟩ := e
    rw [hsteps] at h
    rw [persistFrom_error hsteps]
    exact h
  | ok d =>
    rw [hsteps] at h
    rw [persistFrom_ok hsteps]
    exact h

theorem tmp_gone {q : PathName} (habs : q.absolute = true) (hq : q.NamesFile)
    (hdisk : prepare s proc (sf.spelled q) disk = .ok d) :
    look (some (persistFrom archive s proc (sf.spelled q) next disk).2.disk)
      (resolve proc.cwd q.tmp) = none := by
  have hsibling := resolve_sibling hq proc.cwd
  have hprepared := (prepare_ends s proc (sf.spelled q) disk hsibling).of_ok hdisk
  have hbin := resolve_absolute habs s.staging proc.cwd
  have htmp := (resolve_sibling hq s.staging).unique hsibling |>.mp hbin
  apply look_persistFrom
  rw [hdisk]
  refine (finish_ends hsibling hprepared hbin htmp).mono ?_ ?_
  · exact fun d' hd' => hd'.2.1
  · exact fun code d' hd' => hd'.2.2.1

section

variable (hname : sf.binaryPath.NamesFile)
include hname

section

variable (h : MeansSame s proc sf.binaryPath ∨ ∀ d, prepare s proc sf disk ≠ .ok d)
include h

theorem steps_ends :
    Ends (fun d => Replaced archive s proc sf disk d ∧ Touches [resolve proc.cwd sf.binaryPath.tmp,
          s.staging, resolve proc.cwd sf.binaryPath] disk d)
      (fun code d => code ≠ EX_OK ∧ look (some d) (resolve proc.cwd sf.binaryPath) =
        look (some disk) (resolve proc.cwd sf.binaryPath) ∧
        Touches [resolve proc.cwd sf.binaryPath.tmp, s.staging] disk d)
      (prepare s proc sf disk >>= finish archive s sf) := by
  have hsibling := resolve_sibling hname proc.cwd
  have hprepare := prepare_ends s proc sf disk hsibling
  cases hdisk : prepare s proc sf disk with
  | error e =>
    rw [hdisk] at hprepare
    exact hprepare
  | ok d =>
    rw [hdisk] at hprepare
    have hsame : MeansSame s proc sf.binaryPath := h.elim id fun hnot => absurd hdisk (hnot d)
    have htmp := (resolve_sibling hname s.staging).unique hsibling |>.mp hsame
    refine (finish_ends hsibling hprepare hsame htmp).mono ?_ ?_
    · exact fun d' hd' => ⟨hd'.1, hd'.2.2⟩
    · exact fun code d' hd' => ⟨hd'.1, hd'.2.1, hd'.2.2.2⟩

theorem steps_spelling {q : PathName} (habs : q.absolute = true) (hq : q.NamesFile)
    (hqsame : resolve proc.cwd q = resolve proc.cwd sf.binaryPath) :
    prepare s proc (sf.spelled q) disk >>= finish archive s (sf.spelled q) =
      prepare s proc sf disk >>= finish archive s sf := by
  rw [prepare_spelling hq hname hqsame]
  cases hdisk : prepare s proc sf disk with
  | error e => rfl
  | ok d =>
    have hsame : MeansSame s proc sf.binaryPath := h.elim id fun hnot => absurd hdisk (hnot d)
    have hbin : resolve s.staging q = resolve s.staging sf.binaryPath := by
      rw [resolve_absolute habs s.staging proc.cwd, hqsame]
      exact hsame.symm
    have htmp := (resolve_sibling hq s.staging).unique (resolve_sibling hname s.staging) |>.mp hbin
    change finish archive s (sf.spelled q) d = finish archive s sf d
    unfold finish
    dsimp only
    rw [hbin, htmp]

end

variable (h : ∀ q : PathName, persist archive s proc ⟨disk, some (sf.spelled q).doc⟩ =
  persistFrom archive s proc (sf.spelled q) next disk)
include h

theorem atomically_of_steps
    (hsame : MeansSame s proc sf.binaryPath ∨ ∀ d, prepare s proc sf disk ≠ .ok d) :
    Atomically archive s proc sf disk := by
  have hrun : persist archive s proc ⟨disk, some sf.doc⟩ = persistFrom archive s proc sf next disk :=
    h sf.binaryPath
  have hspelling : ∀ q : PathName, q.absolute = true → q.NamesFile →
      resolve proc.cwd q = resolve proc.cwd sf.binaryPath →
      SameOutcome (persist archive s proc ⟨disk, some (sf.spelled q).doc⟩)
        (persist archive s proc ⟨disk, some sf.doc⟩) := by
    intro q habs hq hqsame
    rw [hrun, h q]
    exact persistFrom_spelling (steps_spelling hname hsame habs hq hqsame)
  have hends : Ends _ _ (prepare s proc sf disk >>= finish archive s sf) := steps_ends hname hsame
  cases hsteps : prepare s proc sf disk >>= finish archive s sf with
  | error e =>
    obtain ⟨code, d⟩ := e
    rw [hsteps] at hends
    have hresult := hrun.trans (persistFrom_error hsteps)
    refine ⟨fun _ => by rw [hresult]; exact hends.2.1, ?_, fun _ => by rw [hresult], hspelling⟩
    intro hok
    rw [hresult] at hok
    exact absurd hok hends.1
  | ok d =>
    rw [hsteps] at hends
    have hresult := hrun.trans (persistFrom_ok hsteps)
    have hok : (persist archive s proc ⟨disk, some sf.doc⟩).1 = EX_OK := by rw [hresult]
    refine ⟨absurd hok, ?_, absurd hok, hspelling⟩
    intro _
    rw [hresult]
    exact hends.1

theorem not_atomically {q : PathName}
    (hdisk : prepare s proc sf disk = .ok d) (hdiffers : ¬MeansSame s proc sf.binaryPath)
    (habs : q.absolute = true) (hq : q.NamesFile)
    (hqsame : resolve proc.cwd q = resolve proc.cwd sf.binaryPath) :
    ¬Atomically archive s proc sf disk := by
  intro hatomic
  have hsibling := resolve_sibling hname proc.cwd
  have hsibling' := resolve_sibling hname s.staging
  have hprepared := (prepare_ends s proc sf disk hsibling).of_ok hdisk
  obtain ⟨old, -, hstripped⟩ := hprepared.stripped
  have hleft : look (some (persistFrom archive s proc sf next disk).2.disk)
      (resolve proc.cwd sf.binaryPath.tmp) = some (.file (barePart (readBareSize proc.zip).toNat old)) := by
    apply look_persistFrom
    rw [hdisk]
    apply finish_leaves hstripped hprepared.apartTmp
    · exact fun heq => hdiffers ((hsibling'.unique hsibling).mpr heq)
    · exact resolve_ne_tmp hname s.staging proc.cwd
  have hgone : look (some (persistFrom archive s proc (sf.spelled q) next disk).2.disk)
      (resolve proc.cwd q.tmp) = none :=
    tmp_gone habs hq ((prepare_spelling hq hname hqsame disk).trans hdisk)
  have htmp := (resolve_sibling hq proc.cwd).unique hsibling |>.mp hqsame
  obtain ⟨-, hsame, -⟩ := hatomic.spelling q habs hq hqsame
  have hboth := hsame (resolve proc.cwd sf.binaryPath.tmp)
  rw [h q, h sf.binaryPath, hleft, ← htmp, hgone] at hboth
  nomatch hboth

end

theorem exists_absolute {p : PathName} {cwd : List Name} (hcwd : resolve [] ⟨true, cwd⟩ = cwd)
    (hp : p.NamesFile) : ∃ q : PathName, q.absolute = true ∧ q.NamesFile ∧
      resolve cwd q = resolve cwd p := by
  cases habs : p.absolute with
  | true => exact ⟨p, habs, hp, rfl⟩
  | false =>
    obtain ⟨front, n, hcomps, hn⟩ := hp
    refine ⟨⟨true, cwd ++ p.comps⟩, rfl, ⟨cwd ++ front, n, ?_, hn⟩, ?_⟩
    · rw [hcomps, append_assoc]
    · unfold resolve at hcwd ⊢
      rw [if_pos rfl] at hcwd
      rw [habs, if_pos rfl, if_neg (fun h => nomatch h), foldl_append, hcwd]

/-- For every disk, state file and process, and whichever steps fail: `Persist` is atomic, and does
not depend on how the path of the binary is written, just if the path means the same file from the
staging directory or the command does not get as far as to go there. -/
theorem atomically_iff (archive : Node → Bytes) (s : PersistSteps) (proc : Proc) (sf : ToasterStateFile)
    (disk : Node) (hcwd : resolve [] ⟨true, proc.cwd⟩ = proc.cwd) (hname : sf.binaryPath.NamesFile) :
    Atomically archive s proc sf disk ↔
      MeansSame s proc sf.binaryPath ∨ ¬ReachesChdir s proc sf disk := by
  have hcases := loadFor_cases proc s.file kActionPersist sf disk
  constructor
  · intro hatomic
    by_contra hnot
    obtain ⟨hdiffers, hreaches⟩ := not_or.mp hnot
    rw [not_not] at hreaches
    obtain ⟨d, hdisk⟩ := (prepare_iff_reaches hreaches.file hreaches.state).mpr hreaches
    obtain ⟨q, habs, hq, hqsame⟩ := exists_absolute hcwd hname
    rcases hcases with ⟨code, -, hload⟩ | ⟨next, -, -, hload⟩
    · obtain ⟨hderive, hread⟩ := hreaches.file
      have hload := hload sf.binaryPath
      rw [loadFor_doc, if_pos hderive, if_pos (Bool.and_eq_true _ _ ▸ hread)] at hload
      cases hnext : kTransitionTable sf.state kActionPersist with
      | none => exact hreaches.state hnext
      | some next => rw [hnext] at hload; nomatch hload
    · exact not_atomically hname (fun q => persist_eq (hload q)) hdisk hdiffers habs hq hqsame hatomic
  · intro h
    rcases hcases with ⟨code, hcode, hload⟩ | ⟨next, hfile, hnext, hload⟩
    · exact atomically_refused hcode fun q => persist_refused (hload q)
    · apply atomically_of_steps hname fun q => persist_eq (hload q)
      refine h.imp_right ?_
      intro hnot d hdisk
      exact hnot ((prepare_iff_reaches hfile (by rw [hnext]; exact fun h => nomatch h)).mp ⟨d, hdisk⟩)

/-! ## A relative path -/

def homeDisk : Node :=
  .dir false [("home", .dir false [("app", .file [1, 2, 3])]), ("tmp", .dir false [("up", .dir false [])])]

def homeProc : Proc := ⟨⟨false, ["app"]⟩, ["home"], 7, some (.dir false [(".bare_size", .file [0x32])])⟩

def thawedState (p : PathName) : ToasterStateFile :=
  ⟨kThawed, kOverlayUserland, p, ⟨true, ["tmp", "up"]⟩, .empty, .empty, .empty⟩

def noFailure : PersistSteps := ⟨allWell, true, true, none, true, "a", true, true, true, none, true⟩

/-- With no step failing, the relative path makes `rename` fail, in the staging directory that has
been removed. -/
theorem not_atomically_relative :
    ¬Atomically (fun _ => [9]) noFailure homeProc (thawedState ⟨false, ["app"]⟩) homeDisk := by
  intro h
  have hcode := (h.spelling ⟨true, ["home", "app"]⟩ rfl ⟨["home"], "app", rfl, by decide⟩ rfl).1
  revert hcode
  decide

theorem atomically_absolute :
    Atomically (fun _ => [9]) noFailure homeProc (thawedState ⟨true, ["home", "app"]⟩) homeDisk :=
  (atomically_iff _ _ _ _ _ (by decide) ⟨["home"], "app", rfl, by decide⟩).mpr (Or.inl rfl)

end CosmoRuby.Caboose
