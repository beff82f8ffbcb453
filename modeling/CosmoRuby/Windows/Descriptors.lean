import Mathlib
import CosmoRuby.Lib.Bytes

/-!
# Descriptor slots on Windows

The table of file descriptors: how `__init_fds` fills it from the standard handles and the list a
parent process passes in `_COSMO_FDS_V2`, and how `__reservefd_unlocked` and `__releasefd` use it
with one thread. The memory behind the table is taken to be there, zero where nothing was stored.
-/

open CosmoRuby.Lib Function

namespace CosmoRuby.Windows

open List

/-! ## 1. The table -/

def kFdEmpty : UInt8 := 0
def kFdFile : UInt8 := 1
def kFdConsole : UInt8 := 4
def kFdReserved : UInt8 := 8

/-- `struct Fds`: the hint `f`, the number of slots `n`, and the kind of each slot. -/
structure Fds where
  f : Nat
  n : Nat
  kind : Nat → UInt8

def ensurefdsUnlocked (s : Fds) (fd : Nat) : Fds :=
  { s with n := max s.n (fd + 1) }

def Fds.store (s : Fds) (fd : Nat) (kind : UInt8) : Fds :=
  { s with kind := Function.update s.kind fd kind }

def scanEmpty (s : Fds) : Nat → Nat → Nat
  | 0, fd => fd
  | fuel + 1, fd =>
    if fd < s.n then if s.kind fd = kFdEmpty then fd else scanEmpty s fuel (fd + 1) else fd

/-- `none` is `EMFILE`. The hint is lowered to the slot behind the new one, never raised. -/
def reservefdUnlocked (limit : Nat) (s : Fds) (start : Int) : Option Nat × Fds :=
  let first := (max start s.f).toNat
  let fd := scanEmpty s (s.n - first) first
  let s := ensurefdsUnlocked s fd
  if limit ≤ fd then (none, s)
  else (some fd, { s.store fd kFdReserved with f := min (fd + 1) s.f })

def releasefd (s : Fds) (fd : Nat) : Fds :=
  if fd < s.n then { s.store fd kFdEmpty with f := min fd s.f } else s

/-! ## 2. Start-up -/

inductive StdHandle where
  | invalid
  | console
  | file
deriving DecidableEq

def setupWinStd (s : Fds) (i : Nat) : StdHandle → Fds
  | .invalid => s
  | .console => { s.store i kFdConsole with f := i + 1 }
  | .file => { s.store i kFdFile with f := i + 1 }

def tokDigits (d : BitVec 64) : BitVec 64 → Bytes → Option (BitVec 64 × Bytes)
  | _, [] => none
  | x, c :: text =>
    if 48 ≤ c.toNat ∧ c.toNat ≤ 57 then
      tokDigits d (x * 10 + BitVec.ofNat 64 (c.toNat - 48) * d) text
    else some (x, text)

def tokAtoi : Bytes → Option (BitVec 64 × Bytes)
  | [] => none
  | c :: text => if c = 45 then tokDigits (-1) 0 text else tokDigits 1 0 (c :: text)

def tokens : Nat → Bytes → Option (List (BitVec 64) × Bytes)
  | 0, text => some ([], text)
  | k + 1, text =>
    (tokAtoi text).bind fun r => (tokens k r.2).map fun q => (r.1 :: q.1, q.2)

/-- One entry of the list: `fd_handle_kind_flags_mode_shand_type_family_protocol_`. -/
structure Inherited where
  fd : BitVec 64
  kind : BitVec 64
deriving DecidableEq

def inheritedFrom : Nat → Bytes → List Inherited
  | 0, _ => []
  | fuel + 1, text =>
    match tokens 9 text with
    | none => []
    | some r => ⟨r.1.getD 0 0, r.1.getD 2 0⟩ :: inheritedFrom fuel r.2

def inherited (text : Bytes) : List Inherited :=
  inheritedFrom text.length text

def Inherited.slot (e : Inherited) : UInt8 := UInt8.ofNat (e.kind.toNat % 256)

/-- A number that is not a nonnegative `int` has no slot: `none` is a store outside the table, or a
hint that wraps. -/
def inheritFd (s : Fds) (e : Inherited) : Option Fds :=
  if e.fd.toNat + 1 < 2 ^ 31 then
    some { (ensurefdsUnlocked s e.fd.toNat).store e.fd.toNat e.slot with f := e.fd.toNat + 1 }
  else none

def stdFds (std : Fin 3 → StdHandle) : Fds :=
  setupWinStd (setupWinStd (setupWinStd ⟨3, 3, fun _ => kFdEmpty⟩ 0 (std 0)) 1 (std 1)) 2 (std 2)

def initFds (std : Fin 3 → StdHandle) (fdspec : Bytes) : Option Fds :=
  (inherited fdspec).foldlM inheritFd (stdFds std)

/-! ## 3. Looking for a slot -/

def Fds.Sized (s : Fds) : Prop :=
  ∀ i, s.n ≤ i → s.kind i = kFdEmpty

variable {s s' : Fds}

theorem scanEmpty_spec (hs : s.Sized) (fuel fd : Nat) (hfuel : s.n - fd ≤ fuel) :
    fd ≤ scanEmpty s fuel fd ∧ s.kind (scanEmpty s fuel fd) = kFdEmpty ∧
      ∀ j, fd ≤ j → j < scanEmpty s fuel fd → s.kind j ≠ kFdEmpty := by
  induction fuel generalizing fd with
  | zero => exact ⟨Nat.le_refl fd, hs fd (by omega), fun j hle hlt => absurd hle (by
      change j < fd at hlt
      omega)⟩
  | succ fuel ih =>
    rw [scanEmpty]
    split <;> rename_i hn
    · split <;> rename_i hempty
      · exact ⟨Nat.le_refl fd, hempty, fun j hle hlt => absurd hle (by omega)⟩
      · obtain ⟨hle, hkind, hfirst⟩ := ih (fd + 1) (by omega)
        refine ⟨by omega, hkind, fun j hj hlt => ?_⟩
        rcases Nat.eq_or_lt_of_le hj with rfl | hgt
        · exact hempty
        · exact hfirst j hgt hlt
    · exact ⟨Nat.le_refl fd, hs fd (by omega), fun j hle hlt => absurd hle (by omega)⟩

/-- Where `__reservefd_unlocked` ends up, whether or not the limit lets it have the slot. -/
def found (s : Fds) (start : Int) : Nat :=
  scanEmpty s (s.n - (max start s.f).toNat) (max start s.f).toNat

theorem found_isLeast (hs : s.Sized) (start : Int) :
    IsLeast {k : Nat | max start s.f ≤ k ∧ s.kind k = kFdEmpty} (found s start) := by
  obtain ⟨hle, hkind, hfirst⟩ :=
    scanEmpty_spec hs _ (max start s.f).toNat (Nat.le_refl (s.n - (max start s.f).toNat))
  refine ⟨⟨Int.toNat_le.1 hle, hkind⟩, ?_⟩
  rintro k ⟨hk, hempty⟩
  by_contra hlt
  exact hfirst k (Int.toNat_le.2 hk) (not_le.1 hlt) hempty

section

variable (limit : Nat) (s : Fds)

theorem reservefdUnlocked_eq (start : Int) :
    reservefdUnlocked limit s start =
      if limit ≤ found s start then (none, ensurefdsUnlocked s (found s start))
      else (some (found s start),
        { (ensurefdsUnlocked s (found s start)).store (found s start) kFdReserved with
          f := min (found s start + 1) s.f }) :=
  rfl

theorem reservefdUnlocked_fst (start : Int) :
    (reservefdUnlocked limit s start).1 =
      if limit ≤ found s start then none else some (found s start) := by
  rw [reservefdUnlocked_eq]
  exact apply_ite Prod.fst _ _ _

/-! ## 4. Runs -/

inductive Call where
  | reserve (start : Int)
  | release (fd : Nat)

def Call.exec : Call → Fds
  | .reserve start => (reservefdUnlocked limit s start).2
  | .release fd => releasefd s fd

def run (calls : List Call) : Fds :=
  calls.foldl (Call.exec limit) s

/-- The call returns the smallest number from `start` on whose slot is empty, if the limit allows
that number. -/
def ReturnsLowest (start : Int) : Prop :=
  ∀ fd, IsLeast {k : Nat | max start 0 ≤ k ∧ s.kind k = kFdEmpty} fd → fd < limit →
    (reservefdUnlocked limit s start).1 = some fd

def Fds.Packed : Prop :=
  ∀ i, i < s.f → i < limit → s.kind i ≠ kFdEmpty

end

theorem Fds.Sized.exec (hs : s.Sized) (limit : Nat) (c : Call) : (c.exec limit s).Sized := by
  intro i hi
  cases c with
  | reserve start =>
    change (reservefdUnlocked limit s start).2.n ≤ i at hi
    change (reservefdUnlocked limit s start).2.kind i = _
    rw [reservefdUnlocked_eq] at hi ⊢
    split_ifs at hi ⊢ with hlimit
    · exact hs i ((le_max_left _ _).trans hi)
    · have hne : i ≠ found s start := by
        have hlt : found s start + 1 ≤ i := (le_max_right _ _).trans hi
        omega
      exact (update_of_ne hne _ _).trans (hs i ((le_max_left _ _).trans hi))
  | release fd =>
    change (releasefd s fd).n ≤ i at hi
    change (releasefd s fd).kind i = _
    rw [releasefd] at hi ⊢
    split_ifs at hi ⊢ with hfd
    · have hne : i ≠ fd := by
        change s.n ≤ i at hi
        omega
      exact (update_of_ne hne _ _).trans (hs i hi)
    · exact hs i hi

variable {limit : Nat}

theorem Fds.Packed.exec (hs : s.Packed limit) (c : Call) : (c.exec limit s).Packed limit := by
  intro i hi hlim
  cases c with
  | reserve start =>
    change i < (reservefdUnlocked limit s start).2.f at hi
    change (reservefdUnlocked limit s start).2.kind i ≠ _
    rw [reservefdUnlocked_eq] at hi ⊢
    split_ifs at hi ⊢ with hlimit
    · exact hs i hi hlim
    · by_cases heq : i = found s start
      · subst heq
        exact (update_self _ _ _).trans_ne (by decide)
      · exact (update_of_ne heq _ _).trans_ne (hs i (hi.trans_le (min_le_right _ _)) hlim)
  | release fd =>
    change i < (releasefd s fd).f at hi
    change (releasefd s fd).kind i ≠ _
    rw [releasefd] at hi ⊢
    split_ifs at hi ⊢ with hfd
    · have hne : i ≠ fd := Nat.ne_of_lt (hi.trans_le (min_le_left _ _))
      exact (update_of_ne hne _ _).trans_ne (hs i (hi.trans_le (min_le_right _ _)) hlim)
    · exact hs i hi hlim

theorem sized_run (hs : s.Sized) (limit : Nat) (calls : List Call) : (run limit s calls).Sized := by
  induction calls generalizing s with
  | nil => exact hs
  | cons c calls ih => exact ih (hs.exec limit c)

theorem packed_run (hs : s.Packed limit) (calls : List Call) :
    (run limit s calls).Packed limit := by
  induction calls generalizing s with
  | nil => exact hs
  | cons c calls ih => exact ih (hs.exec c)

theorem returnsLowest_iff (hs : s.Sized) (limit : Nat) :
    (∀ start, ReturnsLowest limit s start) ↔ s.Packed limit := by
  constructor
  · intro h i hi hlim hempty
    have hleast : IsLeast {k : Nat | max (i : Int) 0 ≤ k ∧ s.kind k = kFdEmpty} i := by
      refine ⟨⟨by simp, hempty⟩, ?_⟩
      rintro k ⟨hk, -⟩
      exact Int.ofNat_le.1 ((le_max_left _ _).trans hk)
    have hfound : (s.f : Int) ≤ found s i := (le_max_right _ _).trans (found_isLeast hs i).1.1
    have hret := h i i hleast hlim
    rw [reservefdUnlocked_fst] at hret
    split at hret
    · cases hret
    · have heq : found s i = i := Option.some.inj hret
      omega
  · intro hpacked start fd hfd hlim
    have hbelow : s.f ≤ fd := by
      by_contra hlt
      exact hpacked fd (not_le.1 hlt) hlim hfd.1.2
    have hleast : IsLeast {k : Nat | max start s.f ≤ k ∧ s.kind k = kFdEmpty} fd := by
      refine ⟨⟨?_, hfd.1.2⟩, ?_⟩
      · have hstart := hfd.1.1
        omega
      · rintro k ⟨hk, hempty⟩
        refine hfd.2 ⟨?_, hempty⟩
        omega
    rw [reservefdUnlocked_fst, (found_isLeast hs start).unique hleast, if_neg (not_le.2 hlim)]

/-! ## 5. What start-up leaves -/

/-- The slot has a descriptor after start-up: the last entry for it, or the standard handle. -/
def Opened (std : Fin 3 → StdHandle) : List Inherited → Nat → Prop
  | [], i => ∃ h : i < 3, std ⟨i, h⟩ ≠ .invalid
  | e :: es, i => if e.fd.toNat = i then e.slot ≠ kFdEmpty else Opened std es i

def stdHint (std : Fin 3 → StdHandle) : Nat :=
  if std 2 ≠ .invalid then 3 else if std 1 ≠ .invalid then 2 else if std 0 ≠ .invalid then 1 else 3

def hint (std : Fin 3 → StdHandle) (es : List Inherited) : Nat :=
  match es.getLast? with
  | none => stdHint std
  | some e => e.fd.toNat + 1

theorem setupWinStd_kind (s : Fds) (i j : Nat) (h : StdHandle) :
    (setupWinStd s i h).kind j = kFdEmpty ↔
      if i = j ∧ h ≠ .invalid then False else s.kind j = kFdEmpty := by
  by_cases hij : i = j
  · subst hij
    cases h with
    | invalid => simp [setupWinStd]
    | console => simp [setupWinStd, Fds.store, kFdConsole, kFdEmpty]
    | file => simp [setupWinStd, Fds.store, kFdFile, kFdEmpty]
  · have hji : j ≠ i := fun h => hij h.symm
    cases h with
    | invalid => simp [setupWinStd, hij]
    | console | file => simp [setupWinStd, Fds.store, hij, update_of_ne hji]

section

variable (std : Fin 3 → StdHandle)

theorem stdFds_f : (stdFds std).f = stdHint std := by
  rw [stdFds, stdHint]
  cases std 0 <;> cases std 1 <;> cases std 2 <;> rfl

theorem stdFds_n : (stdFds std).n = 3 := by
  rw [stdFds]
  cases std 0 <;> cases std 1 <;> cases std 2 <;> rfl

theorem stdFds_kind (i : Nat) : (stdFds std).kind i ≠ kFdEmpty ↔ Opened std [] i := by
  rw [Ne, stdFds, setupWinStd_kind, setupWinStd_kind, setupWinStd_kind, Opened]
  match i with
  | 0 => simp
  | 1 => simp
  | 2 => simp
  | i + 3 => simp

theorem sized_stdFds : (stdFds std).Sized := by
  intro i hi
  by_contra hkind
  obtain ⟨hlt, -⟩ := (stdFds_kind std i).1 hkind
  rw [stdFds_n] at hi
  omega

end

structure Started (std : Fin 3 → StdHandle) (es : List Inherited) (s : Fds) : Prop where
  sized : s.Sized
  hint : s.f = (es.head?.map fun e => e.fd.toNat + 1).getD (stdHint std)
  kind : ∀ i, s.kind i ≠ kFdEmpty ↔ Opened std es i

theorem started_stdFds (std : Fin 3 → StdHandle) : Started std [] (stdFds std) :=
  ⟨sized_stdFds std, stdFds_f std, stdFds_kind std⟩

variable {std : Fin 3 → StdHandle} {es : List Inherited}

theorem Started.inheritFd {e : Inherited} (h : Started std es s) (hstep : inheritFd s e = some s') :
    Started std (e :: es) s' := by
  rw [Windows.inheritFd] at hstep
  split at hstep
  case isFalse => cases hstep
  case isTrue =>
    have heq := Option.some.inj hstep
    subst heq
    refine ⟨fun i hi => ?_, rfl, fun i => ?_⟩
    · have hne : i ≠ e.fd.toNat := by
        have hlt : e.fd.toNat + 1 ≤ i := (le_max_right _ _).trans hi
        omega
      exact (update_of_ne hne _ _).trans (h.sized i ((le_max_left _ _).trans hi))
    · change Function.update s.kind e.fd.toNat e.slot i ≠ _ ↔ _
      rw [Opened]
      split_ifs with hfd
      · rw [← hfd, update_self]
      · rw [update_of_ne (fun h => hfd h.symm), h.kind]

theorem Started.foldlM {es' : List Inherited}
    (h : Started std es' s) (hrun : es.foldlM Windows.inheritFd s = some s') :
    Started std (es.reverse ++ es') s' := by
  induction es generalizing s es' with
  | nil =>
    have heq := Option.some.inj hrun
    subst heq
    exact h
  | cons e es ih =>
    rw [foldlM_cons] at hrun
    obtain ⟨u, hu, hrest⟩ := Option.bind_eq_some_iff.1 hrun
    rw [reverse_cons, append_assoc]
    exact ih (h.inheritFd hu) hrest

theorem started_initFds {fdspec : Bytes}
    (h : initFds std fdspec = some s) : Started std (inherited fdspec).reverse s := by
  have hstarted := (started_stdFds std).foldlM h
  rw [append_nil] at hstarted
  exact hstarted

theorem Started.f_eq (h : Started std es.reverse s) : s.f = Windows.hint std es := by
  rw [h.hint, List.head?_reverse, Windows.hint]
  cases es.getLast? with
  | none => rfl
  | some e => rfl

/-- After start-up the lowest free descriptor is found in every run exactly if every number below
that of the last descriptor start-up came by was opened. -/
theorem lowestFree_iff_opened (limit : Nat) (std : Fin 3 → StdHandle) (fdspec : Bytes) (s : Fds)
    (hinit : initFds std fdspec = some s) :
    (∀ calls start, ReturnsLowest limit (run limit s calls) start) ↔
      ∀ i, i < hint std (inherited fdspec) → i < limit →
        Opened std (inherited fdspec).reverse i := by
  have hstarted := started_initFds hinit
  have hpacked : s.Packed limit ↔ ∀ i, i < hint std (inherited fdspec) → i < limit →
      Opened std (inherited fdspec).reverse i := by
    rw [Fds.Packed, hstarted.f_eq]
    exact forall_congr' fun i => by rw [hstarted.kind]
  rw [← hpacked]
  constructor
  · intro h
    exact (returnsLowest_iff hstarted.sized limit).1 fun start => h [] start
  · intro h calls
    exact (returnsLowest_iff (sized_run hstarted.sized limit calls) limit).2 (packed_run h calls)

theorem lowestFree_console : ∃ s, initFds (fun _ => .console) [] = some s ∧
    ReturnsLowest 100 (run 100 s [.reserve 0, .release 1]) 0 := by
  refine ⟨_, rfl, (lowestFree_iff_opened 100 (fun _ => .console) [] _ rfl).2 ?_ _ _⟩
  intro i hi _
  exact ⟨hi, StdHandle.noConfusion⟩

/-- Without standard handles and without a list, the first descriptor is 3 and not 0. -/
theorem first_descriptor_three : ∃ s, initFds (fun _ => .invalid) [] = some s ∧
    (reservefdUnlocked 100 s 0).1 = some 3 ∧ ¬ ReturnsLowest 100 s 0 := by
  refine ⟨_, rfl, by decide, fun h => ?_⟩
  have hzero := h 0 ⟨⟨by decide, rfl⟩, fun k _ => Nat.zero_le k⟩ (by decide)
  exact absurd hzero (by decide)

end CosmoRuby.Windows
