import CosmoRuby.Plugin.Effects

/-!
# The size of the global offset table

The table gets its size from `CountGotRelocations` before the objects are relocated, and may not
grow once a slot of it is taken. The count knows the `GOTPCREL` relocations; those of thread-local
symbols take slots as well.
-/

namespace CosmoRuby.Plugin

open Lib List

/-! ## The count and the demand -/

def tlsSlotsOf : RelType → Nat
  | .tlsgd | .tlsld => 2
  | .gottpoff | .gotpc32Tlsdesc => 1
  | _ => 0

def tlsSlots (o : PluginObject) : Nat :=
  (o.shdrs.map fun sh =>
    if sh.shType ≠ shtRela then 0
    else if !isAllocated o sh then 0
    else (sh.relas.map fun r => tlsSlotsOf (relType r.type)).sum).sum

theorem slotsOf_eq (t : RelType) : slotsOf t = (isGotpcrel t).toNat + tlsSlotsOf t := by
  cases t <;> rfl

theorem sum_slotsOf (l : List Elf64Rela) :
    (l.map fun r => slotsOf (relType r.type)).sum =
      l.countP (fun r => isGotpcrel (relType r.type)) +
        (l.map fun r => tlsSlotsOf (relType r.type)).sum := by
  induction l with
  | nil => rfl
  | cons r l ih =>
    rw [map_cons, sum_cons, map_cons, sum_cons, countP_cons, ih,
      slotsOf_eq]
    cases isGotpcrel (relType r.type) <;> simp only [Bool.toNat_true, Bool.toNat_false,
      if_true, Bool.false_eq_true, if_false] <;> omega

theorem sectionSlots_eq (o : PluginObject) (sh : Elf64Shdr) :
    sectionSlots o sh =
      (if sh.shType ≠ shtRela then 0
        else if !isAllocated o sh then 0
        else sh.relas.countP fun r => isGotpcrel (relType r.type)) +
      (if sh.shType ≠ shtRela then 0
        else if !isAllocated o sh then 0
        else (sh.relas.map fun r => tlsSlotsOf (relType r.type)).sum) := by
  unfold sectionSlots
  by_cases hrela : sh.shType ≠ shtRela
  · rw [if_pos hrela, if_pos hrela, if_pos hrela]
  rw [if_neg hrela, if_neg hrela, if_neg hrela]
  unfold relocSlots
  cases isAllocated o sh with
  | false => simp
  | true => exact sum_slotsOf sh.relas

theorem objectSlots_eq (o : PluginObject) : objectSlots o = countGotRelocations o + tlsSlots o := by
  unfold objectSlots countGotRelocations tlsSlots
  rw [← sum_map_add]
  exact congrArg List.sum (map_congr_left fun sh _ => sectionSlots_eq o sh)

def totalCount (objs : List PluginObject) : Nat := (objs.map countGotRelocations).sum

def totalTls (objs : List PluginObject) : Nat := (objs.map tlsSlots).sum

theorem sum_objectSlots (objs : List PluginObject) :
    (objs.map objectSlots).sum = totalCount objs + totalTls objs := by
  unfold totalCount totalTls
  rw [← sum_map_add]
  exact congrArg List.sum (map_congr_left fun o _ => objectSlots_eq o)

/-! ## The capacity -/

def gotCapacity (total : Nat) : Nat := if total = 0 then 0 else max total 16

variable {h : Host} {m : Memory} {objs : List PluginObject} {p : PluginState}

theorem preSizeGot_ok (hp : preSizeGot h (startPlugin m) objs = .ok p) :
    p.Valid ∧ p.gotcalls = 0 ∧ p.gotcap = gotCapacity (totalCount objs) := by
  have hstart := startPlugin_valid m
  unfold preSizeGot at hp
  rw [← totalCount] at hp
  unfold gotCapacity
  cases htotal : totalCount objs with
  | zero =>
    rw [htotal] at hp
    cases hp
    exact ⟨hstart, rfl, rfl⟩
  | succ k =>
    rw [htotal] at hp
    simp only [Nat.succ_pos, if_true] at hp
    have hroom : ¬k + 1 ≤ (startPlugin m).gotcap := Nat.not_succ_le_zero k
    have hused : ¬0 < (startPlugin m).gotcount := Nat.lt_irrefl 0
    unfold ensureGotCap at hp
    rw [if_neg hroom, if_neg hused] at hp
    dsimp only at hp
    cases hmap : h.mapGot (max (k + 1)
        (if (startPlugin m).gotcap ≠ 0 then (startPlugin m).gotcap * 2 else 16)) with
    | none => rw [hmap] at hp; nomatch hp
    | some a =>
      rw [hmap] at hp
      cases hp
      exact ⟨{ hstart with }, rfl, (if_neg (Nat.succ_ne_zero k)).symm⟩

def finalState : Loads PluginState → PluginState
  | .ok p => p
  | .error (_, p) => p

/-- The calls of `AllocateGotSlot` are at most as many as the table has room for when relocation
starts, and it never has to refuse to grow. -/
def PreSizeSuffices (h : Host) (m : Memory) (objs : List PluginObject) : Prop :=
  ∀ p, preSizeGot h (startPlugin m) objs = .ok p →
    (finalState (relocateObjects h p objs)).gotcalls ≤ p.gotcap ∧
      ∀ q, relocateObjects h p objs ≠ .error (.gotRefused, q)

/-- The table could be mapped, and no relocation fails for another reason than the size of the
table. -/
def Supported (h : Host) (m : Memory) (objs : List PluginObject) : Prop :=
  ∃ p, preSizeGot h (startPlugin m) objs = .ok p ∧
    ∀ e q, relocateObjects h p objs = .error (e, q) → e = .gotRefused

theorem preSizeSuffices_of_le
    (hle : totalCount objs + totalTls objs ≤ gotCapacity (totalCount objs)) :
    PreSizeSuffices h m objs := by
  intro p hp
  obtain ⟨hvalid, hzero, hcap⟩ := preSizeGot_ok hp
  have hruns := relocateObjects_runs h objs hvalid
  rw [sum_objectSlots] at hruns
  cases hrun : relocateObjects h p objs with
  | ok q =>
    rw [hrun] at hruns
    have hcalls := hruns.gotcalls hvalid
    refine ⟨?_, fun q hq => nomatch hq⟩
    rw [finalState]
    omega
  | error x =>
    obtain ⟨e, q⟩ := x
    rw [hrun] at hruns
    have hcalls := hruns.gotcalls
    have hgrown := hruns.gotcap
    refine ⟨?_, fun q' hq' => ?_⟩
    · rw [finalState]
      omega
    · cases hq'
      have hrefused := hruns.refused rfl
      omega

theorem le_of_preSizeSuffices (hs : Supported h m objs) (hsuff : PreSizeSuffices h m objs) :
    totalCount objs + totalTls objs ≤ gotCapacity (totalCount objs) := by
  obtain ⟨p, hp, hother⟩ := hs
  obtain ⟨hvalid, hzero, hcap⟩ := preSizeGot_ok hp
  obtain ⟨hcalls, hnever⟩ := hsuff p hp
  have hruns := relocateObjects_runs h objs hvalid
  rw [sum_objectSlots] at hruns
  cases hrun : relocateObjects h p objs with
  | ok q =>
    rw [hrun] at hruns hcalls
    have htotal := hruns.gotcalls hvalid
    rw [finalState] at hcalls
    omega
  | error x =>
    obtain ⟨e, q⟩ := x
    cases hother e q hrun
    exact absurd hrun (hnever q)

theorem le_gotCapacity_iff (g x : Nat) :
    g + x ≤ gotCapacity g ↔ x = 0 ∨ (0 < g ∧ g + x ≤ 16) := by
  unfold gotCapacity
  split_ifs <;> omega

/-- The size suffices when no relocation of a thread-local symbol takes a slot, or when the table
has its minimum size and that has room for them. -/
theorem preSizeSuffices_iff (h : Host) (m : Memory) (objs : List PluginObject)
    (hs : Supported h m objs) :
    PreSizeSuffices h m objs ↔
      totalTls objs = 0 ∨ (0 < totalCount objs ∧ totalCount objs + totalTls objs ≤ 16) := by
  rw [← le_gotCapacity_iff]
  exact ⟨le_of_preSizeSuffices hs, preSizeSuffices_of_le⟩

/-! ## A plugin of one section -/

def smallObject (relas : List Elf64Rela) : PluginObject where
  shdrs :=
    [default,
      ⟨1, shfAlloc, 0, 0, [], [], fun _ => []⟩,
      ⟨shtRela, 0, 3, 1, relas, [], fun _ => []⟩,
      ⟨shtSymtab, 0, 0, 0, [], [⟨0, 0, 0, 0, 0⟩, ⟨1, 0x10, 1, 0, 0⟩], fun _ => []⟩]
  sections := [default, ⟨0x10000, 0x1000⟩, default, default]

def relocAt (type : BitVec 64) : Elf64Rela := ⟨0, (1 : BitVec 64) <<< 32 ||| type, 0⟩

def errorOf {α : Type} : Loads α → Option RelocError
  | .ok _ => none
  | .error (e, _) => some e

theorem supported_of_errorOf (hp : preSizeGot h (startPlugin m) objs = .ok p)
    (he : errorOf (relocateObjects h p objs) ∈ [none, some .gotRefused]) : Supported h m objs := by
  refine ⟨p, hp, fun e q hq => ?_⟩
  rw [hq, errorOf] at he
  simpa using he

/-- Two `GOTPCREL` relocations and one `TLSGD` have room. -/
theorem preSizeSuffices_small :
    PreSizeSuffices smallHost (fun _ => 0) [smallObject [relocAt 9, relocAt 19, relocAt 9]] :=
  (preSizeSuffices_iff _ _ _ (supported_of_errorOf rfl (by decide))).mpr (by decide)

/-- Sixteen `GOTPCREL` relocations and one `GOTTPOFF`: the table refuses to grow. -/
theorem not_preSizeSuffices_gottpoff :
    Supported smallHost (fun _ => 0) [smallObject (replicate 16 (relocAt 9) ++ [relocAt 22])] ∧
      ¬PreSizeSuffices smallHost (fun _ => 0)
        [smallObject (replicate 16 (relocAt 9) ++ [relocAt 22])] := by
  have hs : Supported smallHost (fun _ => 0)
      [smallObject (replicate 16 (relocAt 9) ++ [relocAt 22])] :=
    supported_of_errorOf rfl (by decide)
  exact ⟨hs, fun h => absurd (le_of_preSizeSuffices hs h) (by decide)⟩

end CosmoRuby.Plugin