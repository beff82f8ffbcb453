import Mathlib
import CosmoRuby.Pledge.Allowed

/-!
# Assembling the filter

`sys_pledge_linux` writes the program for a set of promises into a buffer of fixed capacity. This
module has the assembler and shows which program it writes, if that fits, and what its parts decide.
-/

open CosmoRuby.Lib.Bpf

namespace CosmoRuby.Pledge

open List

/-! ## 1. The assembler -/

def capacity : Nat := 700

structure Filter where
  p : List Insn
  fits : p.length ≤ capacity

def Filter.empty : Filter :=
  ⟨[], Nat.zero_le capacity⟩

/-- How a call ends without a filter: a trap, or an error for the caller. -/
inductive Fault where
  | notpossible
  | einval
deriving DecidableEq

def appendFilter (q : List Insn) (f : Filter) : Except Fault Filter :=
  if h : f.p.length + q.length ≤ capacity then
    .ok ⟨f.p ++ q, by rw [length_append]; exact h⟩
  else .error .notpossible

def IsSpecial (w : BitVec 16) : Prop :=
  w &&& special ≠ 0

instance (w : BitVec 16) : Decidable (IsSpecial w) :=
  inferInstanceAs (Decidable (_ ≠ _))

def countUnspecial (p : List (BitVec 16)) : Nat :=
  p.countP fun w => ¬ IsSpecial w

def appendUnspecial (count : Nat) : List (BitVec 16) → Nat → Filter → Except Fault Filter
  | [], _, f => .ok f
  | w :: p, j, f =>
    if IsSpecial w then appendUnspecial count p j f
    else
      appendFilter [.jeq (w.setWidth 32) (BitVec.ofNat 8 (count - j - 1))
        (if j = count - 1 then 1 else 0)] f >>= appendUnspecial count p (j + 1)

def appendSpecial (a : Arch) (pid : BitVec 32) : List (BitVec 16) → Filter → Except Fault Filter
  | [], f => .ok f
  | w :: p, f =>
    if IsSpecial w then
      match Special.ofWord a w with
      | some s => appendFilter (s.fragment a pid) f >>= appendSpecial a pid p
      | none => .error .notpossible
    else appendSpecial a pid p f

def appendPledge (a : Arch) (pid : BitVec 32) (p : List (BitVec 16)) (f : Filter) :
    Except Fault Filter := do
  let f ← if countUnspecial p ≠ 0 then
      if countUnspecial p < 256 then
        appendUnspecial (countUnspecial p) p 0 f >>= appendFilter [.ret retAllow]
      else .error .notpossible
    else .ok f
  appendSpecial a pid p f

def appendPromises (a : Arch) (pid : BitVec 32) (ipromises : BitVec 64) :
    List Promise → Filter → Except Fault Filter
  | [], f => .ok f
  | p :: ps, f =>
    if Promised ipromises p then
      if (words a (kPledge p)).length ≠ 0 then
        appendPledge a pid (words a (kPledge p)) f >>= appendPromises a pid ipromises ps
      else .error .notpossible
    else appendPromises a pid ipromises ps f

def architecture : Arch → BitVec 32
  | .x86_64 => 62 ||| 0x80000000 ||| 0x40000000
  | .aarch64 => 183 ||| 0x80000000 ||| 0x40000000

def firstUnknown (a : Arch) : BitVec 32 :=
  match a.number .memfdSecret with
  | some n => n.setWidth 32
  | none => a.nr .landlockRestrictSelf + 1

def kPledgeStart (a : Arch) : List Insn :=
  [.ld offArch,
    .jeq (architecture a) 1 0,
    .ret retKillProcess,
    .ld offNr,
    .jge (firstUnknown a) 3 0,
    .jeq (a.nr .memfdCreate) 2 0,
    .jeq (a.nr .openat2) 1 0,
    .jeq (a.nr .clone3) 0 1,
    .ret (retErrno ||| (enosys &&& retData))]

def kFilterIgnoreExitGroup (a : Arch) : List Insn :=
  [.jeq (a.nr .exitGroup) 0 1, .ret (retErrno ||| (eperm &&& retData))]

def stderrLogging : BitVec 32 := 0x0010

def penaltyMask : BitVec 32 := 0x000f

def penalty (mode : BitVec 32) : Option (BitVec 32) :=
  if mode &&& penaltyMask = 0x0000 then some retKillThread
  else if mode &&& penaltyMask = 0x0001 then some retKillProcess
  else if mode &&& penaltyMask = 0x0002 then some (retErrno ||| eperm)
  else none

/-- What the assembler asks the system for: its process and thread, and whether it could install
the handler of `SIGSYS`. -/
structure Caller where
  pid : BitVec 32
  tid : BitVec 32
  monitors : Bool

/-- What is written behind the promises. -/
def appendEnding (a : Arch) (c : Caller) (mode : BitVec 32) (f : Filter) : Except Fault Filter :=
  if mode &&& stderrLogging ≠ 0 then
    if c.monitors then
      appendFilter (allowMonitor a c.pid c.tid) f >>=
        appendFilter [.ret (retTrap ||| (mode &&& retData))]
    else .error .notpossible
  else
    match penalty mode with
    | some k => appendFilter [.ret k] f
    | none => .error .einval

def sysPledgeLinux (a : Arch) (c : Caller) (ipromises : BitVec 64) (mode : BitVec 32) :
    Except Fault Filter := do
  let f ← appendFilter (kPledgeStart a) .empty
  let f ← if ipromises = -1 then appendFilter (kFilterIgnoreExitGroup a) f else .ok f
  let f ← appendPledge a c.pid (words a kPledgeDefault) f
  let f ← appendPromises a c.pid ipromises Promise.all f
  appendEnding a c mode f

/-! ## 2. The program that is written -/

theorem appendFilter_nil (f : Filter) : appendFilter [] f = .ok f := by
  have hfits : f.p.length + ([] : List Insn).length ≤ capacity := f.fits
  obtain ⟨p, hp⟩ := f
  simp only [appendFilter, dif_pos hfits, append_nil]

theorem appendFilter_append (q r : List Insn) (f : Filter) :
    appendFilter q f >>= appendFilter r = appendFilter (q ++ r) f := by
  have hlen : f.p.length + (q ++ r).length = f.p.length + q.length + r.length := by
    rw [length_append, Nat.add_assoc]
  by_cases hq : f.p.length + q.length ≤ capacity
  · have hqr : (f.p ++ q).length + r.length = f.p.length + (q ++ r).length := by
      rw [hlen, length_append]
    rw [appendFilter, dif_pos hq]
    change appendFilter r _ = _
    by_cases hr : f.p.length + (q ++ r).length ≤ capacity
    · rw [appendFilter, appendFilter, dif_pos hr, dif_pos (hqr ▸ hr)]
      simp only [append_assoc]
    · rw [appendFilter, appendFilter, dif_neg hr, dif_neg (hqr ▸ hr)]
  · have hqr : ¬ f.p.length + (q ++ r).length ≤ capacity := by omega
    rw [appendFilter, appendFilter, dif_neg hq, dif_neg hqr]
    rfl

def unspecials (p : List (BitVec 16)) : List (BitVec 32) :=
  (p.filter fun w => ¬ IsSpecial w).map (·.setWidth 32)

def specials (a : Arch) (p : List (BitVec 16)) : List Special :=
  (p.filter fun w => IsSpecial w).filterMap (Special.ofWord a)

def pledgeCode (a : Arch) (pid : BitVec 32) (p : List (BitVec 16)) : List Insn :=
  (if unspecials p = [] then [] else oneOf 1 (unspecials p) ++ [.ret retAllow]) ++
    (specials a p).flatMap (Special.fragment a pid)

/-- A table that is small enough and whose special entries `AppendPledge` knows. -/
structure Wf (a : Arch) (p : List (BitVec 16)) : Prop where
  nonempty : p.length ≠ 0
  small : countUnspecial p < 256
  known : ∀ w ∈ p, IsSpecial w → (Special.ofWord a w).isSome

theorem length_unspecials (p : List (BitVec 16)) :
    (unspecials p).length = countUnspecial p := by
  rw [unspecials, length_map, countUnspecial, countP_eq_length_filter]

theorem unspecials_cons_special {w : BitVec 16} (p : List (BitVec 16)) (hw : IsSpecial w) :
    unspecials (w :: p) = unspecials p := by
  simp [unspecials, hw]

theorem unspecials_cons {w : BitVec 16} (p : List (BitVec 16)) (hw : ¬ IsSpecial w) :
    unspecials (w :: p) = w.setWidth 32 :: unspecials p := by
  simp [unspecials, hw]

theorem appendUnspecial_eq (count : Nat) (p : List (BitVec 16)) (j : Nat) (f : Filter)
    (hj : j + (unspecials p).length = count) :
    appendUnspecial count p j f = appendFilter (oneOf 1 (unspecials p)) f := by
  induction p generalizing j f with
  | nil => exact (appendFilter_nil f).symm
  | cons w p ih =>
    by_cases hw : IsSpecial w
    · rw [unspecials_cons_special p hw] at hj ⊢
      rw [appendUnspecial, if_pos hw, ih j f hj]
    · rw [unspecials_cons p hw, length_cons] at hj
      have hrest : appendUnspecial count p (j + 1) = appendFilter (oneOf 1 (unspecials p)) :=
        funext fun f => ih (j + 1) f (by omega)
      have hjt : count - j - 1 = (unspecials p).length := by omega
      rw [appendUnspecial, if_neg hw, hrest, appendFilter_append, unspecials_cons p hw, hjt]
      cases hu : unspecials p with
      | nil =>
        rw [hu] at hj
        rw [if_pos (by rw [length_nil] at hj; omega)]
        rfl
      | cons k ks =>
        rw [hu] at hj
        rw [if_neg (by rw [length_cons] at hj; omega)]
        rfl

theorem appendSpecial_eq (a : Arch) (pid : BitVec 32) (p : List (BitVec 16)) (f : Filter)
    (hknown : ∀ w ∈ p, IsSpecial w → (Special.ofWord a w).isSome) :
    appendSpecial a pid p f =
      appendFilter ((specials a p).flatMap (Special.fragment a pid)) f := by
  induction p generalizing f with
  | nil => exact (appendFilter_nil f).symm
  | cons w p ih =>
    have htail : appendSpecial a pid p =
        appendFilter ((specials a p).flatMap (Special.fragment a pid)) :=
      funext fun f => ih f fun v hv => hknown v (mem_cons_of_mem w hv)
    by_cases hw : IsSpecial w
    · obtain ⟨s, hs⟩ := Option.isSome_iff_exists.1 (hknown w mem_cons_self hw)
      have hcons : specials a (w :: p) = s :: specials a p := by
        simp [specials, hw, hs]
      rw [appendSpecial, if_pos hw, hs, hcons, flatMap_cons, ← appendFilter_append, htail]
    · have hcons : specials a (w :: p) = specials a p := by
        simp [specials, hw]
      rw [appendSpecial, if_neg hw, hcons, htail]

theorem appendPledge_eq (a : Arch) (pid : BitVec 32) {p : List (BitVec 16)} (hp : Wf a p)
    (f : Filter) : appendPledge a pid p f = appendFilter (pledgeCode a pid p) f := by
  have hlen := length_unspecials p
  have hspecial : appendSpecial a pid p =
      appendFilter ((specials a p).flatMap (Special.fragment a pid)) :=
    funext fun f => appendSpecial_eq a pid p f hp.known
  rw [appendPledge, pledgeCode, ← appendFilter_append, ← hspecial]
  by_cases hnil : unspecials p = []
  · have hcount : ¬ countUnspecial p ≠ 0 := by rw [← hlen, hnil]; decide
    rw [if_neg hcount, if_pos hnil, appendFilter_nil]
  · have hcount : countUnspecial p ≠ 0 := by
      rw [← hlen]
      exact fun h => hnil (List.length_eq_zero_iff.1 h)
    rw [if_pos hcount, if_pos hp.small, if_neg hnil, ← appendFilter_append,
      appendUnspecial_eq _ p 0 f (by rw [hlen, Nat.zero_add])]

instance : Fintype Arch := .ofList [.x86_64, .aarch64] fun a => by cases a <;> decide

instance : Fintype Promise := .ofList Promise.all Promise.mem_all

theorem wf_tables : ∀ a : Arch, ∀ t ∈ kPledgeDefault :: Promise.all.map kPledge,
    (words a t).length ≠ 0 ∧ countUnspecial (words a t) < 256 ∧
      (words a t).all fun w => !decide (IsSpecial w) || (Special.ofWord a w).isSome := by
  decide +kernel

theorem wf_of_mem (a : Arch) {t : List Entry} (ht : t ∈ kPledgeDefault :: Promise.all.map kPledge) :
    Wf a (words a t) := by
  obtain ⟨hne, hsmall, hknown⟩ := wf_tables a t ht
  refine ⟨hne, hsmall, fun w hw hspecial => ?_⟩
  have hw := List.all_eq_true.1 hknown w hw
  rw [decide_eq_true hspecial] at hw
  exact hw

theorem wf_default (a : Arch) : Wf a (words a kPledgeDefault) :=
  wf_of_mem a mem_cons_self

theorem wf_kPledge (a : Arch) (p : Promise) : Wf a (words a (kPledge p)) :=
  wf_of_mem a (mem_cons_of_mem _ (mem_map_of_mem p.mem_all))

section

variable (a : Arch) (pid : BitVec 32) (ipromises : BitVec 64)

def promisesCode (ps : List Promise) : List Insn :=
  (ps.filter fun p => Promised ipromises p).flatMap fun p => pledgeCode a pid (words a (kPledge p))

theorem appendPromises_eq (ps : List Promise) (f : Filter) :
    appendPromises a pid ipromises ps f = appendFilter (promisesCode a pid ipromises ps) f := by
  induction ps generalizing f with
  | nil => exact (appendFilter_nil f).symm
  | cons p ps ih =>
    have htail : appendPromises a pid ipromises ps =
        appendFilter (promisesCode a pid ipromises ps) := funext ih
    by_cases hp : Promised ipromises p
    · have hcons : promisesCode a pid ipromises (p :: ps) =
          pledgeCode a pid (words a (kPledge p)) ++ promisesCode a pid ipromises ps := by
        simp [promisesCode, hp]
      rw [appendPromises, if_pos hp, if_pos (wf_kPledge a p).nonempty,
        appendPledge_eq a pid (wf_kPledge a p), hcons, ← appendFilter_append, htail]
    · have hcons : promisesCode a pid ipromises (p :: ps) = promisesCode a pid ipromises ps := by
        simp [promisesCode, hp]
      rw [appendPromises, if_neg hp, hcons, htail]

def body : List Insn :=
  kPledgeStart a ++
    ((if ipromises = -1 then kFilterIgnoreExitGroup a else []) ++
      (pledgeCode a pid (words a kPledgeDefault) ++
        promisesCode a pid ipromises Promise.all))

end

def ending (a : Arch) (c : Caller) (mode : BitVec 32) : Except Fault (List Insn) :=
  if mode &&& stderrLogging ≠ 0 then
    if c.monitors then
      .ok (allowMonitor a c.pid c.tid ++ [.ret (retTrap ||| (mode &&& retData))])
    else .error .notpossible
  else
    match penalty mode with
    | some k => .ok [.ret k]
    | none => .error .einval

theorem appendFilter_bind (q r : List Insn) (f : Filter) (k : Filter → Except Fault Filter) :
    (appendFilter q f >>= fun f => appendFilter r f >>= k) = appendFilter (q ++ r) f >>= k := by
  rw [← appendFilter_append, bind_assoc]

theorem sysPledgeLinux_eq_bind (a : Arch) (c : Caller) (ipromises : BitVec 64)
    (mode : BitVec 32) :
    sysPledgeLinux a c ipromises mode =
      appendFilter (body a c.pid ipromises) .empty >>= fun f =>
        ending a c mode >>= fun t => appendFilter t f := by
  have hending (f : Filter) :
      appendEnding a c mode f = ending a c mode >>= fun t => appendFilter t f := by
    unfold appendEnding ending
    split
    · split
      · exact appendFilter_append _ _ f
      · rfl
    · cases penalty mode <;> rfl
  have hok (f : Filter) (k : Filter → Except Fault Filter) : (.ok f >>= k) = k f := rfl
  by_cases hempty : ipromises = -1
  · simp only [sysPledgeLinux, body, if_pos hempty, appendPledge_eq a c.pid (wf_default a),
      appendPromises_eq, hending, appendFilter_bind]
  · simp only [sysPledgeLinux, body, if_neg hempty, hok, appendPledge_eq a c.pid (wf_default a),
      appendPromises_eq, hending, appendFilter_bind, nil_append]

theorem sysPledgeLinux_eq (a : Arch) (c : Caller) (ipromises : BitVec 64) (mode : BitVec 32)
    {t : List Insn} (ht : ending a c mode = .ok t) :
    sysPledgeLinux a c ipromises mode = appendFilter (body a c.pid ipromises ++ t) .empty := by
  rw [sysPledgeLinux_eq_bind, ht, ← appendFilter_append]
  rfl

theorem eq_program {a : Arch} {c : Caller} {ipromises : BitVec 64} {mode : BitVec 32} {f : Filter}
    (h : sysPledgeLinux a c ipromises mode = .ok f) :
    ∃ t, ending a c mode = .ok t ∧ f.p = body a c.pid ipromises ++ t := by
  cases ht : ending a c mode with
  | error e =>
    rw [sysPledgeLinux_eq_bind, ht] at h
    cases hbody : appendFilter (body a c.pid ipromises) .empty with
    | error e' | ok f' => rw [hbody] at h; cases h
  | ok t =>
    rw [sysPledgeLinux_eq a c ipromises mode ht, appendFilter] at h
    split at h
    · cases h
      exact ⟨t, rfl, rfl⟩
    · cases h

end CosmoRuby.Pledge
