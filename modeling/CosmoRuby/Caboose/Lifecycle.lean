import CosmoRuby.Caboose.Commands

/-!
# The commands and the table

After a command the state file has the state it had, or the one that the table gives for it and the
command; and what the table refuses does not change the file. `WarmCmd`, which does not ask the
table, is the exception.
-/

namespace CosmoRuby.Caboose

open Lib ToasterState ToasterAction OverlayBackend ExitCode

inductive Command where
  | warm (s : WarmSteps)
  | thaw (s : ThawSteps)
  | freeze (s : FileSteps)
  | persist (s : PersistSteps)
  | discard (s : DiscardSteps)

def Command.action : Command → ToasterAction
  | .warm _ => kActionWarm
  | .thaw _ => kActionThaw
  | .freeze _ => kActionFreeze
  | .persist _ => kActionPersist
  | .discard _ => kActionDiscard

def Command.run (archive : Node → Bytes) (proc : Proc) (w : World) : Command → ExitCode × World
  | .warm s => warmCmd s proc w
  | .thaw s => Caboose.thaw s proc w
  | .freeze s => Caboose.freeze s proc w
  | .persist s => Caboose.persist archive s proc w
  | .discard s => Caboose.discard s proc w

structure Lawful (action : ToasterAction) (doc doc' : Option StateDoc) : Prop where
  follows : recorded doc' = recorded doc ∨
    ∃ s, recorded doc = some s ∧ ∃ next, kTransitionTable s action = some next ∧
      recorded doc' = some next
  refused : ∀ s, recorded doc = some s → kTransitionTable s action = none → doc' = doc

structure AlreadyWarm (pid : Nat) (sf : ToasterStateFile) : Prop where
  state : sf.state = kWarm
  backend : sf.backend = kOverlayKernel
  mount : sf.mountPath = tmpPath ["toast-mount-" ++ toString pid]
  upper : sf.upperPath = tmpPath ["toast-overlay-" ++ toString pid, "upper"]
  work : sf.workPath = tmpPath ["toast-overlay-" ++ toString pid, "work"]
  lower : sf.lowerPath = tmpPath ["toast-lower-" ++ toString pid]

/-- A `warm` that the table refuses and whose steps all succeed. -/
structure Overwrites (s : WarmSteps) (proc : Proc) (doc : Option StateDoc)
    (sf : ToasterStateFile) : Prop where
  steps : s.fails = none
  derive : s.file.derive = true
  save : s.file.save = true
  load : loadStateFile s.file proc.prog doc = some sf
  refused : kTransitionTable sf.state kActionWarm = none
  differs : ¬AlreadyWarm proc.pid sf

def KeepsToTable (proc : Proc) (doc : Option StateDoc) (c : Command) : Prop :=
  ∀ s sf, c = .warm s → ¬Overwrites s proc doc sf

/-! ## What a command does to the state file -/

variable {archive : Node → Bytes} {proc : Proc} {w : World} {s : FileSteps} {doc doc' : Option StateDoc}
  {sf : ToasterStateFile} {next : ToasterState} {action : ToasterAction} {p : PathName}

theorem recorded_doc (sf : ToasterStateFile) : recorded (some sf.doc) = some sf.state := by
  unfold recorded
  dsimp only
  rw [read_doc]
  rfl

theorem read_state {d : StateDoc} (h : d.read p = some sf) :
    (d.read .empty).map ToasterStateFile.state = some sf.state := by
  unfold StateDoc.read at h ⊢
  cases hd : d.state with
  | none =>
    rw [hd] at h
    cases h
    rfl
  | some name =>
    rw [hd] at h
    dsimp only at h ⊢
    cases hname : parseStateName name with
    | none => rw [hname] at h; nomatch h
    | some state =>
      rw [hname] at h
      cases h
      rfl

theorem load_cases (h : loadStateFile s p doc = some sf) :
    (doc = none ∧ sf = coldState p) ∨ ∃ d, doc = some d ∧ d.read p = some sf := by
  unfold loadStateFile at h
  rw [Option.ite_none_right_eq_some] at h
  cases doc with
  | none => exact Or.inl ⟨rfl, (Option.some.inj h.2).symm⟩
  | some d =>
    have hread := h.2
    dsimp only at hread
    rw [Option.ite_none_right_eq_some] at hread
    exact Or.inr ⟨d, rfl, hread.2⟩

theorem recorded_of_load (h : loadStateFile s p doc = some sf) : recorded doc = some sf.state := by
  cases load_cases h with
  | inl hcold =>
    rw [hcold.1, hcold.2]
    rfl
  | inr hread =>
    obtain ⟨d, rfl, hd⟩ := hread
    exact read_state hd

theorem loadFor_load (h : loadFor s proc action w = .ok (sf, next)) :
    loadStateFile s proc.prog w.stateFile = some sf ∧ kTransitionTable sf.state action = some next := by
  unfold loadFor at h
  split_ifs at h with hderive
  cases hload : loadStateFile s proc.prog w.stateFile with
  | none => rw [hload] at h; nomatch h
  | some sf₀ =>
    rw [hload] at h
    cases hnext : toasterTransition sf₀.state action with
    | none => dsimp only at h; rw [hnext] at h; nomatch h
    | some next₀ =>
      dsimp only at h
      rw [hnext] at h
      cases h
      exact ⟨rfl, hnext⟩

theorem loadFor_ok (h : loadFor s proc action w = .ok (sf, next)) :
    recorded w.stateFile = some sf.state ∧ kTransitionTable sf.state action = some next :=
  ⟨recorded_of_load (loadFor_load h).1, (loadFor_load h).2⟩

theorem saveStateFile_cases (s : FileSteps) (sf : ToasterStateFile) (doc : Option StateDoc) :
    (saveStateFile s sf doc).1 = doc ∨ (saveStateFile s sf doc).1 = some sf.doc := by
  unfold saveStateFile
  split_ifs
  · exact Or.inr rfl
  · exact Or.inl rfl

/-- A file that a command has saved after it asked the table, or removed. -/
inductive Follows (action : ToasterAction) (doc : Option StateDoc) : Option StateDoc → Prop
  | same : Follows action doc doc
  | saved {s : ToasterState} (sf : ToasterStateFile) (hdoc : recorded doc = some s)
      (hnext : kTransitionTable s action = some sf.state) : Follows action doc (some sf.doc)
  | removed {s : ToasterState} (hdoc : recorded doc = some s)
      (hnext : kTransitionTable s action = some kCold) : Follows action doc none

theorem Follows.lawful (h : Follows action doc doc') : Lawful action doc doc' := by
  cases h with
  | same => exact ⟨Or.inl rfl, fun _ _ _ => rfl⟩
  | saved sf hdoc hnext =>
    refine ⟨Or.inr ⟨_, hdoc, _, hnext, recorded_doc sf⟩, ?_⟩
    intro s hs hnone
    rw [hdoc] at hs
    cases hs
    rw [hnext] at hnone
    nomatch hnone
  | removed hdoc hnext =>
    refine ⟨Or.inr ⟨_, hdoc, _, hnext, rfl⟩, ?_⟩
    intro s hs hnone
    rw [hdoc] at hs
    cases hs
    rw [hnext] at hnone
    nomatch hnone

theorem follows_save (h : loadFor s proc action w = .ok (sf, next)) (s' : FileSteps)
    {sf' : ToasterStateFile} (hstate : sf'.state = next) :
    Follows action w.stateFile (saveStateFile s' sf' w.stateFile).1 := by
  obtain ⟨hrec, hnext⟩ := loadFor_ok h
  cases saveStateFile_cases s' sf' w.stateFile with
  | inl hsame =>
    rw [hsame]
    exact .same
  | inr hsaved =>
    rw [hsaved]
    exact .saved sf' hrec (hstate ▸ hnext)

theorem thaw_follows (s : ThawSteps) (proc : Proc) (w : World) :
    Follows kActionThaw w.stateFile (thaw s proc w).2.stateFile := by
  unfold thaw
  cases hload : loadFor s.file proc kActionThaw w with
  | error code => exact .same
  | ok r =>
    obtain ⟨sf, next⟩ := r
    dsimp only
    split_ifs with hzip hkernel hsteps
    · cases s.pizMount with
      | none => exact .same
      | some piz => exact follows_save hload s.file rfl
    · exact .same
    · cases thawUserland s proc sf w.disk with
      | error disk => exact .same
      | ok r => exact follows_save hload s.file rfl
    · exact .same

theorem freeze_follows (s : FileSteps) (proc : Proc) (w : World) :
    Follows kActionFreeze w.stateFile (freeze s proc w).2.stateFile := by
  unfold freeze
  cases hload : loadFor s proc kActionFreeze w with
  | error code => exact .same
  | ok r =>
    obtain ⟨sf, next⟩ := r
    have hfollows : Follows kActionFreeze w.stateFile
        (saveStateFile s { sf with state := next } w.stateFile).1 := follows_save hload s rfl
    dsimp only
    unfold saveStateFile at hfollows ⊢
    split_ifs at hfollows ⊢
    · exact hfollows
    · exact .same

theorem discard_next {s : ToasterState} (h : kTransitionTable s kActionDiscard = some next) :
    next = kCold := by
  cases s <;> cases h <;> rfl

theorem discard_follows (s : DiscardSteps) (proc : Proc) (w : World) :
    Follows kActionDiscard w.stateFile (discard s proc w).2.stateFile := by
  unfold discard
  cases hload : loadFor s.file proc kActionDiscard w with
  | error code => exact .same
  | ok r =>
    obtain ⟨sf, next⟩ := r
    obtain ⟨hrec, hnext⟩ := loadFor_ok hload
    dsimp only
    split_ifs with hremove
    all_goals first
      | exact .same
      | exact .removed hrec (discard_next hnext ▸ hnext)

theorem persist_follows (s : PersistSteps) (proc : Proc) (w : World) :
    Follows kActionPersist w.stateFile (persist archive s proc w).2.stateFile := by
  unfold persist
  cases hload : loadFor s.file proc kActionPersist w with
  | error code => exact .same
  | ok r =>
    obtain ⟨sf, next⟩ := r
    dsimp only
    cases prepare s proc sf w.disk >>= finish archive s sf with
    | error e => exact .same
    | ok disk => exact follows_save hload s.file rfl

/-! ## Warm -/

theorem warmState_eq_iff (pid : Nat) (sf : ToasterStateFile) :
    warmState pid sf = sf ↔ AlreadyWarm pid sf := by
  constructor
  · intro h
    rw [← h]
    exact ⟨rfl, rfl, rfl, rfl, rfl, rfl⟩
  · intro h
    cases sf
    cases h.state
    cases h.backend
    cases h.mount
    cases h.upper
    cases h.work
    cases h.lower
    rfl

theorem warmCmd_cases (s : WarmSteps) (proc : Proc) (w : World) :
    (warmCmd s proc w).2.stateFile = w.stateFile ∨
      ∃ sf, s.fails = none ∧ s.file.derive = true ∧ s.file.save = true ∧
        loadStateFile s.file proc.prog w.stateFile = some sf ∧
        (warmCmd s proc w).2.stateFile = some (warmState proc.pid sf).doc := by
  cases hfails : s.fails with
  | some i =>
    have hnot : ∀ j : Fin warmFailures.length, warmFailures.get j ≠ EX_OK := by decide
    unfold warmCmd warm
    rw [hfails]
    dsimp only
    split
    · rename_i hok
      exact absurd hok (hnot i)
    · exact Or.inl rfl
  | none =>
    unfold warmCmd warm
    rw [hfails]
    dsimp only
    split_ifs with hderive
    · cases hload : loadStateFile s.file proc.prog w.stateFile with
      | none => exact Or.inl rfl
      | some sf =>
        dsimp only [saveStateFile]
        split_ifs with hsave
        · exact Or.inr ⟨sf, rfl, hderive, hsave, rfl, rfl⟩
        · exact Or.inl rfl
    · exact Or.inl rfl

theorem warmCmd_saves {s : WarmSteps} (hfails : s.fails = none) (hderive : s.file.derive = true)
    (hsave : s.file.save = true) (hload : loadStateFile s.file proc.prog w.stateFile = some sf) :
    (warmCmd s proc w).2.stateFile = some (warmState proc.pid sf).doc := by
  unfold warmCmd warm saveStateFile
  rw [hfails]
  dsimp only
  rw [if_pos hderive, hload]
  dsimp only
  rw [if_pos hsave]

def Saved (doc : Option StateDoc) : Prop := ∀ d, doc = some d → ∃ sf : ToasterStateFile, d = sf.doc

theorem doc_injective {sf sf' : ToasterStateFile} (h : sf.doc = sf'.doc) : sf = sf' := by
  have hread := congrArg (StateDoc.read .empty) h
  rw [read_doc, read_doc] at hread
  exact Option.some.inj hread

theorem load_of_saved {sf₀ : ToasterStateFile}
    (h : loadStateFile s p (some sf₀.doc) = some sf) : sf = sf₀ := by
  cases load_cases h with
  | inl hcold => nomatch hcold.1
  | inr hread =>
    obtain ⟨d, hd, hsf⟩ := hread
    rw [← Option.some.inj hd, read_doc] at hsf
    exact (Option.some.inj hsf).symm

theorem warmCmd_lawful_iff (hsaved : Saved w.stateFile) (s : WarmSteps) :
    Lawful kActionWarm w.stateFile (warmCmd s proc w).2.stateFile ↔
      ∀ sf, ¬Overwrites s proc w.stateFile sf := by
  constructor
  · intro hlawful sf hover
    have hsame := hlawful.refused sf.state (recorded_of_load hover.load) hover.refused
    rw [warmCmd_saves hover.steps hover.derive hover.save hover.load] at hsame
    obtain ⟨sf₀, hsf₀⟩ := hsaved _ hsame.symm
    have hload := hover.load
    rw [← hsame, hsf₀] at hload
    have heq : warmState proc.pid sf = sf := by
      rw [load_of_saved hload]
      have hdocs := doc_injective hsf₀
      rwa [load_of_saved hload] at hdocs
    exact hover.differs ((warmState_eq_iff proc.pid sf).mp heq)
  · intro hnone
    cases warmCmd_cases s proc w with
    | inl hsame =>
      rw [hsame]
      exact Follows.same.lawful
    | inr h =>
      obtain ⟨sf, hfails, hderive, hsave, hload, hdoc⟩ := h
      rw [hdoc]
      have hrec := recorded_of_load hload
      cases hnext : kTransitionTable sf.state kActionWarm with
      | some next =>
        have hwarm : next = (warmState proc.pid sf).state := by
          cases hs : sf.state <;> rw [hs] at hnext <;> cases hnext <;> rfl
        exact (Follows.saved _ hrec (hwarm ▸ hnext)).lawful
      | none =>
        have hwarm : AlreadyWarm proc.pid sf := by
          by_contra hdiffers
          exact hnone sf ⟨hfails, hderive, hsave, hload, hnext, hdiffers⟩
        rw [(warmState_eq_iff proc.pid sf).mpr hwarm]
        cases load_cases hload with
        | inl hcold =>
          rw [hcold.2] at hnext
          nomatch hnext
        | inr hread =>
          obtain ⟨d, hfile, -⟩ := hread
          obtain ⟨sf₀, hsf₀⟩ := hsaved d hfile
          rw [hfile, hsf₀] at hload
          rw [hfile, hsf₀, load_of_saved hload]
          exact Follows.same.lawful

/-! ## Runs -/

theorem lawful_iff_keepsToTable (hsaved : Saved w.stateFile) (c : Command) :
    Lawful c.action w.stateFile (c.run archive proc w).2.stateFile ↔
      KeepsToTable proc w.stateFile c := by
  have hother : (∀ s, c ≠ .warm s) → KeepsToTable proc w.stateFile c := by
    intro hne s sf hs
    exact absurd hs (hne s)
  cases c with
  | warm s =>
    rw [show Command.action (.warm s) = kActionWarm from rfl]
    refine (warmCmd_lawful_iff hsaved s).trans ⟨?_, fun h sf => h s sf rfl⟩
    intro h s' sf hs
    cases hs
    exact h sf
  | thaw s => exact iff_of_true (thaw_follows s proc w).lawful (hother (fun _ h => nomatch h))
  | freeze s => exact iff_of_true (freeze_follows s proc w).lawful (hother (fun _ h => nomatch h))
  | persist s => exact iff_of_true (persist_follows s proc w).lawful (hother (fun _ h => nomatch h))
  | discard s => exact iff_of_true (discard_follows s proc w).lawful (hother (fun _ h => nomatch h))

theorem Follows.saved_file (hsaved : Saved doc) (h : Follows action doc doc') : Saved doc' := by
  cases h with
  | same => exact hsaved
  | saved sf _ _ => exact fun d hd => ⟨sf, (Option.some.inj hd).symm⟩
  | removed _ _ => exact fun d hd => nomatch hd

theorem run_saved (hsaved : Saved w.stateFile) (c : Command) :
    Saved (c.run archive proc w).2.stateFile := by
  cases c with
  | thaw s => exact (thaw_follows s proc w).saved_file hsaved
  | freeze s => exact (freeze_follows s proc w).saved_file hsaved
  | persist s => exact (persist_follows s proc w).saved_file hsaved
  | discard s => exact (discard_follows s proc w).saved_file hsaved
  | warm s =>
    change Saved (warmCmd s proc w).2.stateFile
    cases warmCmd_cases s proc w with
    | inl hsame =>
      rw [hsame]
      exact hsaved
    | inr h =>
      obtain ⟨sf, -, -, -, -, hdoc⟩ := h
      rw [hdoc]
      exact fun d hd => ⟨_, (Option.some.inj hd).symm⟩

def finds (archive : Node → Bytes) : World → List (Proc × Command) → List (World × Proc × Command)
  | _, [] => []
  | w, c :: cs => (w, c) :: finds archive (c.2.run archive c.1 w).2 cs

theorem saved_of_mem_finds {cs : List (Proc × Command)} {x : World × Proc × Command}
    (hsaved : Saved w.stateFile) (hx : x ∈ finds archive w cs) : Saved x.1.stateFile := by
  induction cs generalizing w with
  | nil => nomatch hx
  | cons c cs ih =>
    cases List.mem_cons.mp hx with
    | inl heq =>
      rw [heq]
      exact hsaved
    | inr htail => exact ih (run_saved hsaved c.2) htail

/-- For every sequence of commands, in any processes and with any steps failing, on a disk without a
state file: all of them keep to the table just if none is a `warm` that succeeds in a state for which
the table has no entry, and changes the file. -/
theorem lawful_run_iff (archive : Node → Bytes) (disk : Node) (cs : List (Proc × Command)) :
    (∀ x ∈ finds archive ⟨disk, none⟩ cs, Lawful x.2.2.action x.1.stateFile
        (x.2.2.run archive x.2.1 x.1).2.stateFile) ↔
      ∀ x ∈ finds archive ⟨disk, none⟩ cs, KeepsToTable x.2.1 x.1.stateFile x.2.2 := by
  have hstart : Saved (World.mk disk none).stateFile := fun d hd => nomatch hd
  apply forall₂_congr
  intro x hx
  exact lawful_iff_keepsToTable (saved_of_mem_finds hstart hx) x.2.2

/-! ## A `warm` after a `thaw` -/

def allWell : FileSteps := ⟨true, true, true, true⟩

def shellProc : Proc :=
  ⟨⟨true, ["app"]⟩, [], 7, some (.dir false [("bin", .dir false [("mtsh", .file [])])])⟩

def userlandThaw : ThawSteps :=
  ⟨allWell, some "userland", true, true, true, true, none, ["tmp"], "a", true, true⟩

/-- The second command finds the state `kThawed`, for which the table has no `warm`, and records
`kWarm`. -/
theorem not_lawful_warm_thawed :
    ∃ x ∈ finds (fun _ => []) ⟨.dir false [("tmp", .dir false [])], none⟩
        [(shellProc, .thaw userlandThaw), (shellProc, .warm ⟨allWell, none⟩)],
      ¬Lawful x.2.2.action x.1.stateFile (x.2.2.run (fun _ => []) x.2.1 x.1).2.stateFile := by
  refine ⟨_, List.mem_cons_of_mem _ List.mem_cons_self, ?_⟩
  intro h
  have hsame := h.refused kThawed (by decide) rfl
  have hstate := congrArg recorded hsame
  revert hstate
  decide

end CosmoRuby.Caboose
