import CosmoRuby.Caboose.Atomic

/-!
# Freezing and resuming

Runs of `thaw`, `freeze` and `persist` with the userland backend, between which the user changes the
writable layer. What the user left there last is remembered beside the world, and compared with what
the recorded path leads to. `ThawUserland` makes a new layer from `/zip` every time, also where it is
to resume the recorded one.
-/

namespace CosmoRuby.Caboose

open Lib ToasterState ToasterAction OverlayBackend ExitCode List Option

structure Call where
  prog : PathName
  cwd : List Name
  pid : Nat

inductive Event where
  | thaw (call : Call) (s : { s : ThawSteps // selectBackend s = kOverlayUserland })
  | freeze (call : Call) (s : FileSteps)
  | persist (call : Call) (s : PersistSteps)
  /-- The user makes the writable layer this tree. -/
  | edit (t : { t : Node // Wf (some t) })

/-- The world, and the tree that the user last left in the writable layer. -/
structure Session where
  world : World
  left : Option Node

def InUse (sf : ToasterStateFile) : Prop := sf.state = kThawed ∨ sf.state = kFrozen

instance (sf : ToasterStateFile) : Decidable (InUse sf) := inferInstanceAs (Decidable (_ ∨ _))

def active (doc : Option StateDoc) : Option ToasterStateFile :=
  (doc.bind (StateDoc.read .empty)).filter fun sf => InUse sf

def ToasterStateFile.layer (sf : ToasterStateFile) : List Name := resolve [] sf.upperPath

section

variable (archive : Node → Bytes) (unzip : Bytes → Option Node)

def Call.proc (call : Call) (disk : Node) : Proc :=
  ⟨call.prog, call.cwd, call.pid, (fileAt disk (resolve call.cwd call.prog)).bind unzip⟩

def begins (w w' : World) : Bool :=
  recorded w.stateFile ∈ [some kCold, some kWarm, some kPersisted] &&
    recorded w'.stateFile = some kThawed

def Session.step (x : Session) : Event → ExitCode × Session
  | .thaw call s =>
    let r := Caboose.thaw s.1 (call.proc unzip x.world.disk) x.world
    let left :=
      if begins x.world r.2 then
        (active r.2.stateFile).bind fun sf => sub (some r.2.disk) sf.layer
      else x.left
    (r.1, ⟨r.2, left⟩)
  | .freeze call s =>
    let r := Caboose.freeze s (call.proc unzip x.world.disk) x.world
    (r.1, ⟨r.2, x.left⟩)
  | .persist call s =>
    let r := Caboose.persist archive s (call.proc unzip x.world.disk) x.world
    (r.1, ⟨r.2, x.left⟩)
  | .edit t =>
    match active x.world.stateFile with
    | none => (EX_OK, x)
    | some sf =>
      match sys (fun _ => .ok (some t.1)) sf.layer x.world.disk with
      | .error _ => (EX_OK, x)
      | .ok disk => (EX_OK, ⟨{ x.world with disk }, some t.1⟩)

def Kept (x : Session) : Prop :=
  ∀ sf, active x.world.stateFile = some sf → Same (sub (some x.world.disk) sf.layer) x.left

def Embedded (x : Session) : Event → Prop
  | .persist call s => (x.step archive unzip (.persist call s)).1 = EX_OK →
    ∃ sf bare merged, active x.world.stateFile = some sf ∧
      fileAt (x.step archive unzip (.persist call s)).2.world.disk (resolve call.cwd sf.binaryPath) =
        some (bare ++ archive merged) ∧
      Same (some merged) x.left
  | _ => True

def Apart (p q : List Name) : Prop := ¬p <+: q ∧ ¬q <+: p

/-- The condition on a thaw: a new layer is not made inside the recorded one, and where that one is to
be resumed it looks like a copy of `/zip`. -/
structure ThawSafe (call : Call) (s : ThawSteps) (zip : Option Node) (disk : Node)
    (sf : ToasterStateFile) : Prop where
  apart : Apart sf.layer (resolve call.cwd s.upper)
  fresh : sf.state = kFrozen → ∀ c, copyDirectoryRecursive zip (some (.dir false [])) = .ok c →
    Same (sub (some disk) sf.layer) (some c)

/-- The condition on a persist: the path of the binary means the same in the staging directory, what
is written is not in the layer, and the layer has only files and directories. -/
structure PersistSafe (call : Call) (s : PersistSteps) (disk : Node) (sf : ToasterStateFile) :
    Prop where
  names : sf.binaryPath.NamesFile
  same : resolve s.staging sf.binaryPath = resolve call.cwd sf.binaryPath
  apartBin : Apart sf.layer (resolve call.cwd sf.binaryPath)
  apartTmp : Apart sf.layer (resolve call.cwd sf.binaryPath.tmp)
  apartStaging : Apart sf.layer s.staging
  plain : ∀ p, look (sub (some disk) sf.layer) p ≠ some .special

def Safe (x : Session) : Event → Prop
  | .thaw call s => ∀ sf, active x.world.stateFile = some sf →
    ThawSafe call s.1 (call.proc unzip x.world.disk).zip x.world.disk sf
  | .persist call s => ∀ sf, active x.world.stateFile = some sf → PersistSafe call s x.world.disk sf
  | _ => True

end

/-! ## The recorded layer -/

variable {archive : Node → Bytes} {unzip : Bytes → Option Node} {x : Session} {w : World}
  {sf : ToasterStateFile} {disk d : Node} {p q : List Name} {proc : Proc} {next : ToasterState}
  {s : FileSteps} {action : ToasterAction}

theorem active_doc (sf : ToasterStateFile) :
    active (some sf.doc) = if InUse sf then some sf else none := by
  unfold active
  rw [bind_some, read_doc, filter_some]
  simp only [decide_eq_true_eq]

theorem active_eq_some (hsaved : Saved w.stateFile) :
    active w.stateFile = some sf ↔ w.stateFile = some sf.doc ∧ InUse sf := by
  cases hfile : w.stateFile with
  | none => exact ⟨fun h => (nomatch h), fun h => (nomatch h.1)⟩
  | some d =>
    obtain ⟨sf₀, rfl⟩ := hsaved d hfile
    rw [active_doc, ite_none_right_eq_some]
    constructor
    · rintro ⟨huse, heq⟩
      cases heq
      exact ⟨rfl, huse⟩
    · rintro ⟨heq, huse⟩
      rw [doc_injective (Option.some.inj heq)]
      exact ⟨huse, rfl⟩

theorem same_of_touches {ps : List (List Name)} (h : Touches ps disk d) (hp : ∀ q ∈ ps, Apart p q) :
    Same (sub (some d) p) (sub (some disk) p) := by
  intro r
  rw [← look_append, ← look_append]
  apply h.outside
  intro q hq hbegin
  cases prefix_or_prefix_of_prefix hbegin (prefix_append p r) with
  | inl hqp => exact (hp q hq).2 hqp
  | inr hpq => exact (hp q hq).1 hpq

theorem wf_sub (h : Wf (some disk)) (p : List Name) : Wf (sub (some disk) p) := by
  intro r c hc
  rw [← sub_append] at hc
  exact h _ c hc

section

variable (hsaved : Saved w.stateFile) (h : loadFor s proc action w = .ok (sf, next))
include hsaved h

theorem loadFor_saved : w.stateFile = some sf.doc ∨ w.stateFile = none ∧ sf.state = kCold := by
  have hload := (loadFor_load h).1
  cases load_cases hload with
  | inl hcold => exact Or.inr ⟨hcold.1, by rw [hcold.2]; rfl⟩
  | inr hread =>
    obtain ⟨d, hd, -⟩ := hread
    obtain ⟨sf₁, rfl⟩ := hsaved d hd
    rw [hd] at hload
    rw [load_of_saved hload]
    exact Or.inl hd

theorem loadFor_active (huse : InUse sf) : w.stateFile = some sf.doc ∧ active w.stateFile = some sf := by
  rcases loadFor_saved hsaved h with hdoc | ⟨-, hcold⟩
  · exact ⟨hdoc, (active_eq_some hsaved).mpr ⟨hdoc, huse⟩⟩
  · unfold InUse at huse
    rw [hcold] at huse
    exact huse.elim nofun nofun

end

/-! ## What the commands do to the layer -/

theorem copyTo_keepsWf (src : Option Node) : KeepsWf (copyTo src) := by
  intro t r ht h
  unfold copyTo at h
  cases hc : copyDirectoryRecursive src t with
  | error e => rw [hc] at h; nomatch h
  | ok c =>
    rw [hc] at h
    cases h
    exact wf_copyDirectoryRecursive ht hc

theorem thawUserland_ends {s : ThawSteps} :
    (∀ sf' d, thawUserland s proc sf disk = .ok (sf', d) → Touches [resolve proc.cwd s.upper] disk d ∧
      (∃ c, sub (some d) (resolve proc.cwd s.upper) = some c ∧
        copyDirectoryRecursive proc.zip (some (.dir false [])) = .ok c) ∧ sf'.upperPath = s.upper) ∧
      ∀ d, thawUserland s proc sf disk = .error d → Touches [resolve proc.cwd s.upper] disk d := by
  unfold thawUserland
  dsimp only
  cases hmk : attempt s.mkdtemp (sys mkdir (resolve proc.cwd s.upper) disk) with
  | error e =>
    refine ⟨nofun, fun d h => ?_⟩
    cases h
    exact .refl _ disk
  | ok d₁ =>
    have hmk := (attempt_ok hmk).2
    have ht := sys_touches mkdir_keepsWf hmk
    dsimp only
    cases hcopy : attempt s.copy (sys (copyTo proc.zip) (resolve proc.cwd s.upper) d₁) with
    | error e =>
      refine ⟨nofun, fun d h => ?_⟩
      cases h
      exact ht.trans (tried_touches removeTree_keepsWf _ d₁)
    | ok d₂ =>
      refine ⟨fun sf' d h => ?_, nofun⟩
      cases h
      have hcopy := (attempt_ok hcopy).2
      obtain ⟨-, r, hr, hsub, -⟩ := sys_changed hmk
      obtain ⟨-, r', hr', hsub', -⟩ := sys_changed hcopy
      rw [hsub, (mkdir_eq hr).2] at hr'
      unfold copyTo at hr'
      cases hc : copyDirectoryRecursive proc.zip (some (.dir false [])) with
      | error e => rw [hc] at hr'; nomatch hr'
      | ok c =>
        rw [hc] at hr'
        cases hr'
        exact ⟨ht.trans (sys_touches (copyTo_keepsWf _) hcopy), ⟨c, hsub', rfl⟩, rfl⟩

theorem thaw_cases {s : ThawSteps} (hs : selectBackend s = kOverlayUserland) (proc : Proc) (w : World) :
    (Touches [resolve proc.cwd s.upper] w.disk (thaw s proc w).2.disk ∧
        (thaw s proc w).2.stateFile = w.stateFile) ∨
      ∃ (sf sf' : ToasterStateFile) (next : ToasterState) (c : Node),
        loadFor s.file proc kActionThaw w = .ok (sf, next) ∧
        Touches [resolve proc.cwd s.upper] w.disk (thaw s proc w).2.disk ∧
        (thaw s proc w).2.stateFile = some sf'.doc ∧
        (sf'.state = next ∧ sf'.backend = kOverlayUserland ∧ sf'.upperPath = s.upper) ∧
        sub (some (thaw s proc w).2.disk) (resolve proc.cwd s.upper) = some c ∧
        copyDirectoryRecursive proc.zip (some (.dir false [])) = .ok c := by
  unfold thaw
  cases hload : loadFor s.file proc kActionThaw w with
  | error code => exact Or.inl ⟨.refl _ _, rfl⟩
  | ok r =>
    obtain ⟨sf, next⟩ := r
    have hk : ¬selectBackend s = kOverlayKernel := by
      rw [hs]
      decide
    dsimp only
    rw [if_neg hk]
    split_ifs
    · cases hthaw : thawUserland s proc sf w.disk with
      | error d => exact Or.inl ⟨thawUserland_ends.2 d hthaw, rfl⟩
      | ok r =>
        obtain ⟨sf', d⟩ := r
        obtain ⟨ht, ⟨c, hsub, hcopy⟩, hupper⟩ := thawUserland_ends.1 sf' d hthaw
        dsimp only
        unfold saveStateFile
        split_ifs
        · exact Or.inr ⟨sf, { sf' with state := next, backend := kOverlayUserland }, next, c, rfl, ht,
            rfl, ⟨rfl, rfl, hupper⟩, hsub, hcopy⟩
        · exact Or.inl ⟨ht, rfl⟩
    · exact Or.inl ⟨.refl _ _, rfl⟩

theorem freeze_cases (s : FileSteps) (proc : Proc) (w : World) :
    (freeze s proc w).2 = w ∨ ∃ sf next, loadFor s proc kActionFreeze w = .ok (sf, next) ∧
      (freeze s proc w).2 = ⟨w.disk, some { sf with state := next }.doc⟩ := by
  unfold freeze
  cases hload : loadFor s proc kActionFreeze w with
  | error code => exact Or.inl rfl
  | ok r =>
    obtain ⟨sf, next⟩ := r
    dsimp only
    unfold saveStateFile
    split_ifs
    · exact Or.inr ⟨sf, next, rfl, rfl⟩
    · exact Or.inl rfl

/-! ## One step -/

structure Holds (x : Session) : Prop where
  wf : Wf (some x.world.disk)
  saved : Saved x.world.stateFile
  userland : ∀ sf, active x.world.stateFile = some sf →
    sf.backend = kOverlayUserland ∧ sf.upperPath.absolute = true
  kept : Kept x

theorem recorded_active (h : active w.stateFile = some sf) (hsaved : Saved w.stateFile) :
    recorded w.stateFile = some sf.state := by
  rw [((active_eq_some hsaved).mp h).1, recorded_doc]

theorem not_begins (h : recorded w.stateFile = some kThawed ∨ recorded w.stateFile = some kFrozen)
    (w' : World) : begins w w' = false := by
  unfold begins
  cases h with
  | inl h | inr h => rw [h]; rfl

theorem step_thaw (hx : Holds x) (call : Call)
    (s : { s : ThawSteps // selectBackend s = kOverlayUserland })
    (hsafe : Safe unzip x (.thaw call s)) : Holds (x.step archive unzip (.thaw call s)).2 := by
  set y := (x.step archive unzip (.thaw call s)).2
  have hleft : ∀ sf, active x.world.stateFile = some sf → y.left = x.left := by
    intro sf hsf
    have hno : begins x.world y.world = false := by
      apply not_begins
      rw [recorded_active hsf hx.saved]
      exact ((active_eq_some hx.saved).mp hsf).2.imp (congrArg some) (congrArg some)
    exact if_neg (Bool.eq_false_iff.mp hno)
  rcases thaw_cases s.2 (call.proc unzip x.world.disk) x.world with
    ⟨ht, hfile⟩ | ⟨sf, sf', next, c, hload, ht, hfile, ⟨hnext, hbackend, hupper⟩, hsub, hcopy⟩
  · -- the layer is the one that was recorded before
    refine ⟨ht.wf hx.wf, ?_, ?_, ?_⟩
    · exact fun d hd => hx.saved d (hfile ▸ hd)
    · exact fun sf hsf => hx.userland sf (hfile ▸ hsf)
    · intro sf hsf
      have hsf : active x.world.stateFile = some sf := hfile ▸ hsf
      rw [hleft sf hsf]
      intro r
      refine (same_of_touches ht ?_ r).trans (hx.kept sf hsf r)
      exact List.forall_mem_singleton.mpr (hsafe sf hsf).apart
  · have htable := (loadFor_ok hload).2
    have hthawed : next = kThawed := by
      cases hs : sf.state <;> rw [hs] at htable <;> cases htable <;> rfl
    have hsaved' : Saved y.world.stateFile :=
      fun d hd => ⟨sf', (Option.some.inj (hfile.symm.trans hd)).symm⟩
    have hactive : ∀ sf₁, active y.world.stateFile = some sf₁ → sf₁ = sf' := by
      intro sf₁ hsf₁
      have hdocs := ((active_eq_some hsaved').mp hsf₁).1
      exact (doc_injective (Option.some.inj (hfile.symm.trans hdocs))).symm
    have hlayer : sf'.layer = resolve call.cwd s.1.upper := by
      unfold ToasterStateFile.layer
      rw [hupper]
      exact resolve_absolute rfl [] call.cwd
    refine ⟨ht.wf hx.wf, hsaved', ?_, ?_⟩ <;> intro sf₁ hsf₁
    · rw [hactive sf₁ hsf₁, hupper]
      exact ⟨hbackend, rfl⟩
    · have hsf' : active y.world.stateFile = some sf' :=
        hactive sf₁ hsf₁ ▸ hsf₁
      rw [hactive sf₁ hsf₁]
      by_cases hfrozen : sf.state = kFrozen
      · -- the recorded layer is not resumed, but looks like the new one
        have hsf := (loadFor_active hx.saved hload (.inr hfrozen)).2
        have htree : sub (some y.world.disk) sf'.layer = some c := by
          rw [hlayer]
          exact hsub
        rw [hleft sf hsf, htree]
        intro r
        exact ((hsafe sf hsf).fresh hfrozen c hcopy r).symm.trans (hx.kept sf hsf r)
      · have hrec : recorded x.world.stateFile = some sf.state := (loadFor_ok hload).1
        have hbegins : begins x.world y.world = true := by
          have hafter := recorded_active hsf' hsaved'
          unfold begins
          rw [hrec, hafter, hnext, hthawed]
          cases hs : sf.state <;> rw [hs] at htable hfrozen <;>
            first | rfl | exact absurd rfl hfrozen | nomatch htable
        have hleft : y.left = (active y.world.stateFile).bind fun sf => sub (some y.world.disk) sf.layer :=
          if_pos hbegins
        rw [hleft, hsf']
        exact fun r => rfl

theorem step_freeze (hx : Holds x) (call : Call) (s : FileSteps) :
    Holds (x.step archive unzip (.freeze call s)).2 := by
  rcases freeze_cases s (call.proc unzip x.world.disk) x.world with hsame | ⟨sf, next, hload, hnew⟩
  · have hstep : (x.step archive unzip (.freeze call s)).2 = x := by
      change Session.mk (freeze s (call.proc unzip x.world.disk) x.world).2 x.left = x
      rw [hsame]
    rw [hstep]
    exact hx
  · have hstep : (x.step archive unzip (.freeze call s)).2 =
        ⟨⟨x.world.disk, some { sf with state := next }.doc⟩, x.left⟩ := by
      change Session.mk (freeze s (call.proc unzip x.world.disk) x.world).2 x.left = _
      rw [hnew]
    have htable := (loadFor_ok hload).2
    have hthawed : sf.state = kThawed := by
      cases hs : sf.state <;> rw [hs] at htable <;> first | rfl | nomatch htable
    have hsf := (loadFor_active hx.saved hload (.inl hthawed)).2
    have hactive : ∀ sf₁, active (some { sf with state := next }.doc) = some sf₁ →
        sf₁ = { sf with state := next } := by
      intro sf₁ hsf₁
      rw [active_doc, ite_none_right_eq_some] at hsf₁
      exact (Option.some.inj hsf₁.2).symm
    rw [hstep]
    refine ⟨hx.wf, fun d hd => ⟨_, (Option.some.inj hd).symm⟩, ?_, ?_⟩
    · intro sf₁ hsf₁
      rw [hactive sf₁ hsf₁]
      exact hx.userland sf hsf
    · intro sf₁ hsf₁
      rw [hactive sf₁ hsf₁]
      exact hx.kept sf hsf

theorem step_edit (hx : Holds x) (t : { t : Node // Wf (some t) }) :
    Holds (x.step archive unzip (.edit t)).2 := by
  unfold Session.step
  cases hsf : active x.world.stateFile with
  | none => exact hx
  | some sf =>
    dsimp only
    cases hsys : sys (fun _ => .ok (some t.1)) sf.layer x.world.disk with
    | error e => exact hx
    | ok disk =>
      obtain ⟨-, r, hr, hsub, -⟩ := sys_changed hsys
      have ht := sys_touches (fun _ _ _ h => Except.ok.inj h ▸ t.2) hsys
      refine ⟨ht.wf hx.wf, hx.saved, hx.userland, ?_⟩
      intro sf₁ hsf₁
      have heq : sf₁ = sf := Option.some.inj (hsf₁.symm.trans hsf)
      rw [heq, hsub, ← Except.ok.inj hr]
      exact fun r => rfl

/-! ## Persist -/

theorem stage_userland {zip upper : Option Node} {merged : Node}
    (hwf : Wf upper) (hplain : ∀ p, look upper p ≠ some .special)
    (h : stage kOverlayUserland zip upper = .ok merged) : Same (some merged) upper := by
  unfold stage at h
  rw [if_pos rfl] at h
  cases upper with
  | none => nomatch h
  | some u =>
    intro p
    rw [look_copy_empty hwf h p]
    cases hp : look (some u) p with
    | none => rfl
    | some l =>
      cases l with
      | file b => rfl
      | dir => rfl
      | special => exact absurd hp (hplain p)

theorem loadFor_error {code : ExitCode}
    (h : loadFor s proc action w = .error code) : code ≠ EX_OK := by
  unfold loadFor at h
  split_ifs at h
  · split at h
    · cases h
      decide
    · split at h
      · cases h
        decide
      · nomatch h
  · cases h
    decide

theorem Holds.touched {ps : List (List Name)} (hx : Holds x) (hsf : active x.world.stateFile = some sf)
    (ht : Touches ps x.world.disk d) (hps : ∀ q ∈ ps, Apart sf.layer q) :
    Holds ⟨⟨d, x.world.stateFile⟩, x.left⟩ := by
  refine ⟨ht.wf hx.wf, hx.saved, hx.userland, ?_⟩
  intro sf₁ hsf₁ r
  have heq : sf₁ = sf := Option.some.inj (hsf₁.symm.trans hsf)
  rw [heq]
  exact (same_of_touches ht hps r).trans (hx.kept sf hsf r)

theorem step_persist (hx : Holds x) (call : Call) (s : PersistSteps)
    (hsafe : Safe unzip x (.persist call s)) :
    Holds (x.step archive unzip (.persist call s)).2 ∧ Embedded archive unzip x (.persist call s) := by
  set proc := call.proc unzip x.world.disk
  have hstep : x.step archive unzip (.persist call s) =
      ((persist archive s proc x.world).1, ⟨(persist archive s proc x.world).2, x.left⟩) := rfl
  simp only [Embedded, hstep]
  cases hload : loadFor s.file proc kActionPersist x.world with
  | error code =>
    have hrun : persist archive s proc x.world = (code, x.world) := by
      unfold persist
      rw [hload]
    rw [hrun]
    exact ⟨hx, fun hok => absurd hok (loadFor_error hload)⟩
  | ok r =>
    obtain ⟨sf, next⟩ := r
    have htable := (loadFor_ok hload).2
    have huse : InUse sf ∧ next = kPersisted := by
      unfold InUse
      cases hs : sf.state <;> rw [hs] at htable <;> cases htable <;> decide
    obtain ⟨hold, hsf⟩ := loadFor_active hx.saved hload huse.1
    have hcond := hsafe sf hsf
    obtain ⟨hbackend, habs⟩ := hx.userland sf hsf
    have hupper : resolve call.cwd sf.upperPath = sf.layer := resolve_absolute habs call.cwd []
    have hw : x.world = ⟨x.world.disk, some sf.doc⟩ := by rw [← hold]
    have hrun : persist archive s proc x.world =
        persistFrom archive s proc sf next x.world.disk := by
      have hload' : loadFor s.file proc kActionPersist
          ⟨x.world.disk, some sf.doc⟩ = .ok (sf, next) := hw ▸ hload
      rw [← persist_eq hload', ← hw]
    rw [hrun]
    have hends : Ends _ _ (prepare s proc sf x.world.disk >>=
        finish archive s sf) := steps_ends hcond.names (.inl hcond.same)
    have htwo : ∀ q ∈ [resolve call.cwd sf.binaryPath.tmp, s.staging], Apart sf.layer q :=
      List.forall_mem_cons.mpr ⟨hcond.apartTmp, List.forall_mem_singleton.mpr hcond.apartStaging⟩
    cases hsteps : prepare s proc sf x.world.disk >>= finish archive s sf with
    | error e =>
      obtain ⟨code, d⟩ := e
      rw [hsteps] at hends
      rw [persistFrom_error hsteps]
      refine ⟨?_, fun hok => absurd hok hends.1⟩
      rw [← hold]
      exact hx.touched hsf hends.2.2 htwo
    | ok d =>
      rw [hsteps] at hends
      rw [persistFrom_ok hsteps]
      obtain ⟨⟨old, merged, mid, -, htmid, hstage, hnew⟩, htd⟩ := hends
      have hapart : ∀ q ∈ [resolve call.cwd sf.binaryPath.tmp, s.staging,
          resolve call.cwd sf.binaryPath], Apart sf.layer q :=
        List.forall_mem_append.mpr ⟨htwo, List.forall_mem_singleton.mpr hcond.apartBin⟩
      constructor
      · cases saveStateFile_cases s.file { sf with state := next } (some sf.doc) with
        | inl hsame =>
          rw [hsame, ← hold]
          exact hx.touched hsf htd hapart
        | inr hsaved =>
          -- with the state `kPersisted` there is no layer any more
          rw [hsaved]
          have hnone : active (some { sf with state := next }.doc) = none := by
            rw [active_doc, if_neg]
            rw [huse.2]
            exact fun h => h.elim nofun nofun
          refine ⟨htd.wf hx.wf, fun d hd => ⟨_, (Option.some.inj hd).symm⟩, ?_, ?_⟩ <;>
          · intro sf₁ hsf₁
            rw [hnone] at hsf₁
            nomatch hsf₁
      · intro _
        refine ⟨sf, barePart (readBareSize proc.zip).toNat old, merged, hsf, fileAt_eq_some.mpr hnew, ?_⟩
        · -- what was staged is the layer, which no step before has touched
          have hlayer : Same (sub (some mid) sf.layer) (sub (some x.world.disk) sf.layer) :=
            same_of_touches htmid htwo
          rw [hbackend, show resolve proc.cwd sf.upperPath = sf.layer from
            hupper] at hstage
          have hmerged := stage_userland (wf_sub (htmid.wf hx.wf) sf.layer)
            (fun p => by rw [hlayer p]; exact hcond.plain p) hstage
          intro r
          exact (hmerged r).trans ((hlayer r).trans (hx.kept sf hsf r))

/-! ## Runs -/

def Right (archive : Node → Bytes) (unzip : Bytes → Option Node) (x : Session) (e : Event) : Prop :=
  Kept (x.step archive unzip e).2 ∧ Embedded archive unzip x e

theorem step_holds (hx : Holds x) (e : Event) (hsafe : Safe unzip x e) :
    Holds (x.step archive unzip e).2 ∧ Embedded archive unzip x e := by
  cases e with
  | thaw call s => exact ⟨step_thaw hx call s hsafe, trivial⟩
  | freeze call s => exact ⟨step_freeze hx call s, trivial⟩
  | persist call s => exact step_persist hx call s hsafe
  | edit t => exact ⟨step_edit hx t, trivial⟩

def visited (archive : Node → Bytes) (unzip : Bytes → Option Node) :
    Session → List Event → List (Session × Event)
  | _, [] => []
  | x, e :: es => (x, e) :: visited archive unzip (x.step archive unzip e).2 es

theorem right_of_visited {es : List Event} (hx : Holds x)
    (hsafe : ∀ y ∈ visited archive unzip x es, Safe unzip y.1 y.2) :
    ∀ y ∈ visited archive unzip x es, Right archive unzip y.1 y.2 := by
  induction es generalizing x with
  | nil => exact fun y hy => nomatch hy
  | cons e es ih =>
    obtain ⟨hnext, hembedded⟩ := step_holds hx e (hsafe _ mem_cons_self)
    intro y hy
    cases List.mem_cons.mp hy with
    | inl heq =>
      rw [heq]
      exact ⟨hnext.kept, hembedded⟩
    | inr htail =>
      exact ih hnext (fun z hz => hsafe z (mem_cons_of_mem _ hz)) y htail

/-- In every run from a disk without a state file whose thaws from `kFrozen` find in the layer what
`/zip` has, and whose persists write outside of the layer and read the path of the binary the same
before and after `chdir`: the layer is always what the user last left there, and a persist embeds it. -/
theorem right_of_safe (archive : Node → Bytes) (unzip : Bytes → Option Node) (disk : Node)
    (hdisk : Wf (some disk)) (es : List Event)
    (hsafe : ∀ y ∈ visited archive unzip ⟨⟨disk, none⟩, none⟩ es, Safe unzip y.1 y.2) :
    ∀ y ∈ visited archive unzip ⟨⟨disk, none⟩, none⟩ es, Right archive unzip y.1 y.2 :=
  right_of_visited ⟨hdisk, fun _ h => (nomatch h), fun _ h => (nomatch h), fun _ h => (nomatch h)⟩ hsafe

/-! ## A layer that is lost -/

def shellDisk : Node := .dir false [("app", .file []), ("tmp", .dir false [])]

def shellZip (_ : Bytes) : Option Node :=
  some (.dir false [("bin", .dir false [("mtsh", .file [])]), (".bare_size", .file [0x31])])

def shellCall : Call := ⟨⟨true, ["app"]⟩, [], 7⟩

def thawTo (suffix : Name) : Event :=
  .thaw shellCall
    ⟨⟨allWell, some "userland", true, true, true, true, none, ["tmp"], suffix, true, true⟩, by rfl⟩

def writeNote : Event :=
  .edit ⟨.dir false [("note", .file [1])], wf_setEntry "note" (wf_emptyDir false) (wf_file [1])⟩

/-- After thaw, edit, freeze and thaw the recorded layer does not have what the user wrote. -/
theorem not_right_second_thaw :
    ∃ y ∈ visited (fun _ => []) shellZip ⟨⟨shellDisk, none⟩, none⟩
        [thawTo "a", writeNote, .freeze shellCall allWell, thawTo "b"],
      ¬Right (fun _ => []) shellZip y.1 y.2 := by
  refine ⟨_, mem_cons_of_mem _ (mem_cons_of_mem _ (mem_cons_of_mem _
    mem_cons_self)), ?_⟩
  intro h
  have hnote := h.1 _ rfl ["note"]
  revert hnote
  decide

theorem wf_shellDisk : Wf (some shellDisk) :=
  wf_setEntry "app" (wf_setEntry "tmp" (wf_emptyDir false) (wf_emptyDir false)) (wf_file [])

/-- A thaw, a freeze, a thaw that resumes, and a persist. -/
def resumed : List (Session × Event) :=
  visited (fun _ => [9]) shellZip ⟨⟨shellDisk, none⟩, none⟩
    [thawTo "a", .freeze shellCall allWell, thawTo "b", .persist shellCall noFailure]

theorem right_first_thaw :
    (∀ y ∈ resumed, Right (fun _ => [9]) shellZip y.1 y.2) ∧
      resumed.map (fun y => (y.1.step (fun _ => [9]) shellZip y.2).1) =
        [EX_OK, EX_OK, EX_OK, EX_OK] := by
  refine ⟨?_, by decide⟩
  apply right_of_safe _ _ _ wf_shellDisk
  intro y hy
  rcases List.mem_cons.mp hy with rfl | hy
  · exact fun sf hsf => nomatch hsf
  rcases List.mem_cons.mp hy with rfl | hy
  · trivial
  rcases List.mem_pair.mp hy with rfl | rfl
  · intro sf hsf
    obtain rfl := Option.some.inj hsf
    refine ⟨by unfold Apart; decide, fun _ c hc => ?_⟩
    obtain rfl := Except.ok.inj hc
    exact fun r => rfl
  · intro sf hsf
    obtain rfl := Option.some.inj hsf
    refine ⟨⟨[], "app", rfl, by decide⟩, rfl, by unfold Apart; decide, by unfold Apart; decide,
      by unfold Apart; decide, fun p hp => ?_⟩
    have hzip : Wf (shellZip []) :=
      wf_setEntry "bin" (wf_setEntry ".bare_size" (wf_emptyDir false) (wf_file [0x31]))
        (wf_setEntry "mtsh" (wf_emptyDir false) (wf_file []))
    exact laidOver_none_ne _ ((look_copy_empty hzip rfl p).symm.trans hp)

end CosmoRuby.Caboose
