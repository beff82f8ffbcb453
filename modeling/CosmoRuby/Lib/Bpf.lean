import Mathlib.Data.BitVec
import Mathlib.Data.List.Basic

/-!
# Classic BPF

The part of the classic packet filter machine that seccomp programs use: one accumulator, loads
of words of the call's record, masks, two comparisons and returns. Jumps only go forward, so a
run is a recursion over the program that counts how many instructions are still to be skipped.
A piece of a program may therefore be run by itself: either it returns, or it runs off its end
with some skips left, and the run of a concatenation is put together from the runs of its parts.
-/

namespace CosmoRuby.Lib.Bpf

open List

/-! ## 1. The machine -/

inductive Insn where
  | ld (off : Nat)
  | and (k : BitVec 32)
  | jeq (k : BitVec 32) (jt jf : BitVec 8)
  | jge (k : BitVec 32) (jt jf : BitVec 8)
  | ret (k : BitVec 32)
deriving DecidableEq

/-- What a run of a piece of code ends in: an answer, or `skip` instructions behind its end. -/
inductive Outcome where
  | ret (k : BitVec 32)
  | through (skip : Nat) (acc : BitVec 32)
deriving DecidableEq

def exec (load : Nat → BitVec 32) : List Insn → Nat → BitVec 32 → Outcome
  | [], n, a => .through n a
  | _ :: p, n + 1, a => exec load p n a
  | .ld off :: p, 0, _ => exec load p 0 (load off)
  | .and k :: p, 0, a => exec load p 0 (a &&& k)
  | .jeq k jt jf :: p, 0, a => if a = k then exec load p jt.toNat a else exec load p jf.toNat a
  | .jge k jt jf :: p, 0, a => if k ≤ a then exec load p jt.toNat a else exec load p jf.toNat a
  | .ret k :: _, 0, _ => .ret k

def Outcome.andThen : Outcome → (Nat → BitVec 32 → Outcome) → Outcome
  | .ret k, _ => .ret k
  | .through n a, f => f n a

variable {load : Nat → BitVec 32} {a k : BitVec 32} {p q : List Insn} {c d : Prop}

theorem exec_append (p q : List Insn) (n : Nat) (a : BitVec 32) :
    exec load (p ++ q) n a = (exec load p n a).andThen (exec load q) := by
  induction p generalizing n a with
  | nil => rfl
  | cons i p ih =>
    cases n with
    | succ n => exact ih n a
    | zero =>
      cases i with
      | ld off | and k => exact ih 0 _
      | ret k => rfl
      | jeq k jt jf | jge k jt jf =>
        rw [cons_append, exec, exec, ih, ih]
        split <;> rfl

theorem exec_length_add (p : List Insn) (n : Nat) (a : BitVec 32) :
    exec load p (p.length + n) a = .through n a := by
  induction p with
  | nil => rw [length_nil, Nat.zero_add]; rfl
  | cons i p ih =>
    have hlen : (i :: p).length + n = p.length + n + 1 := by
      rw [length_cons]; omega
    rw [hlen]
    exact ih

/-! ## 2. Tables of comparisons -/

/-- One comparison for each of `ks`. A hit lands right behind the table, the last miss `miss`
instructions further. -/
def oneOf (miss : BitVec 8) : List (BitVec 32) → List Insn
  | [] => []
  | [k] => [.jeq k 0 miss]
  | k :: k' :: ks => .jeq k (BitVec.ofNat 8 (ks.length + 1)) 0 :: oneOf miss (k' :: ks)

theorem length_oneOf (miss : BitVec 8) (ks : List (BitVec 32)) :
    (oneOf miss ks).length = ks.length := by
  fun_induction oneOf with
  | case1 => rfl
  | case2 => rfl
  | case3 k k' ks ih => rw [length_cons, length_cons, ih]

theorem exec_oneOf (miss : BitVec 8) (ks : List (BitVec 32)) (a : BitVec 32)
    (hne : ks ≠ []) (hlen : ks.length ≤ 256) :
    exec load (oneOf miss ks) 0 a = .through (if a ∈ ks then 0 else miss.toNat) a := by
  fun_induction oneOf with
  | case1 => exact absurd rfl hne
  | case2 k =>
    rw [exec]
    by_cases h : a = k
    · rw [if_pos h, if_pos (List.mem_singleton.2 h)]; rfl
    · rw [if_neg h, if_neg fun hm => h (List.mem_singleton.1 hm)]; rfl
  | case3 k k' ks ih =>
    simp only [length_cons] at hlen
    rw [exec]
    by_cases h : a = k
    · -- the displacement counts the comparisons that are left, so the hit skips all of them
      have hjt : (BitVec.ofNat 8 (ks.length + 1)).toNat = (oneOf miss (k' :: ks)).length + 0 := by
        rw [BitVec.toNat_ofNat, length_oneOf, length_cons]
        omega
      rw [if_pos h, hjt, exec_length_add, if_pos (by rw [h]; exact mem_cons_self)]
    · have hmem : (a ∈ k :: k' :: ks) = (a ∈ k' :: ks) := by
        rw [mem_cons, eq_false h, false_or]
      rw [if_neg h]
      change exec load (oneOf miss (k' :: ks)) 0 a = _
      rw [ih (cons_ne_nil k' ks) (by rw [length_cons]; omega)]
      simp only [hmem]

/-! ## 3. Pieces that decide -/

/-- The piece answers `k` where `c` holds. Elsewhere control passes to the instruction behind
it, with the accumulator as the piece found it. -/
structure Decides (load : Nat → BitVec 32) (a k : BitVec 32) (p : List Insn) (c : Prop) :
    Prop where
  answers : c → exec load p 0 a = .ret k
  falls : ¬ c → exec load p 0 a = .through 0 a

theorem Decides.nil : Decides load a k [] False :=
  ⟨False.elim, fun _ => rfl⟩

theorem Decides.congr (h : Decides load a k p c) (hcd : c ↔ d) : Decides load a k p d :=
  ⟨fun hd => h.answers (hcd.2 hd), fun hd => h.falls fun hc => hd (hcd.1 hc)⟩

theorem Decides.of_eq_ite [Decidable c]
    (h : exec load p 0 a = if c then .ret k else .through 0 a) : Decides load a k p c :=
  ⟨fun hc => by rw [h, if_pos hc], fun hc => by rw [h, if_neg hc]⟩

theorem Decides.append (hp : Decides load a k p c) (hq : Decides load a k q d) :
    Decides load a k (p ++ q) (c ∨ d) := by
  constructor
  · intro h
    by_cases hc : c
    · rw [exec_append, hp.answers hc]; rfl
    · rw [exec_append, hp.falls hc]
      exact hq.answers (h.resolve_left hc)
  · intro h
    rw [exec_append, hp.falls fun hc => h (.inl hc)]
    exact hq.falls fun hd => h (.inr hd)

theorem Decides.flatMap {α : Type*} {f : α → List Insn} {c : α → Prop} {xs : List α}
    (h : ∀ x ∈ xs, Decides load a k (f x) (c x)) :
    Decides load a k (xs.flatMap f) (∃ x ∈ xs, c x) := by
  induction xs with
  | nil => exact Decides.nil.congr (by simp)
  | cons x xs ih =>
    rw [flatMap_cons]
    have hhead := h x mem_cons_self
    have htail := ih fun y hy => h y (mem_cons_of_mem x hy)
    exact (hhead.append htail).congr (by simp)

theorem Decides.oneOf (ks : List (BitVec 32)) (hne : ks ≠ []) (hlen : ks.length ≤ 256) :
    Decides load a k (oneOf 1 ks ++ [.ret k]) (a ∈ ks) := by
  constructor
  · intro h
    rw [exec_append, exec_oneOf 1 ks a hne hlen, if_pos h]; rfl
  · intro h
    rw [exec_append, exec_oneOf 1 ks a hne hlen, if_neg h]; rfl

/-! ## 4. Guarded checks -/

/-- A word of the record, masked or not, has to be one of `ks`. -/
structure Check where
  off : Nat
  mask : Option (BitVec 32)
  ks : List (BitVec 32)

def Check.Passes (load : Nat → BitVec 32) (c : Check) : Prop :=
  match c.mask with
  | none => load c.off ∈ c.ks
  | some m => load c.off &&& m ∈ c.ks

instance (load : Nat → BitVec 32) : (c : Check) → Decidable (c.Passes load)
  | ⟨off, none, ks⟩ => inferInstanceAs (Decidable (load off ∈ ks))
  | ⟨off, some m, ks⟩ => inferInstanceAs (Decidable (load off &&& m ∈ ks))

def Check.code (c : Check) (miss : BitVec 8) : List Insn :=
  .ld c.off :: (c.mask.map .and).toList ++ oneOf miss c.ks

def checks : List Check → List Insn
  | [] => []
  | c :: cs => c.code (BitVec.ofNat 8 ((checks cs).length + 1)) ++ checks cs

/-- Code for one number `nr` only: `k` is the answer if all checks are passed, and otherwise the
word at `home` is loaded again for what follows. -/
def guarded (nr k : BitVec 32) (home : Nat) (cs : List Check) : List Insn :=
  .jeq nr 0 (BitVec.ofNat 8 ((checks cs).length + 2)) :: (checks cs ++ [.ret k, .ld home])

def Check.Wf (c : Check) : Prop :=
  c.ks ≠ [] ∧ c.ks.length ≤ 256

instance (c : Check) : Decidable c.Wf :=
  inferInstanceAs (Decidable (_ ∧ _))

theorem exec_code (load : Nat → BitVec 32) (a : BitVec 32) (c : Check) (miss : BitVec 8)
    (hc : c.Wf) :
    ∃ a', exec load (c.code miss) 0 a =
      .through (if c.Passes load then 0 else miss.toNat) a' := by
  obtain ⟨off, mask, ks⟩ := c
  cases mask with
  | none => exact ⟨_, exec_oneOf miss ks (load off) hc.1 hc.2⟩
  | some m => exact ⟨_, exec_oneOf miss ks (load off &&& m) hc.1 hc.2⟩

theorem exec_checks (load : Nat → BitVec 32) (a : BitVec 32) (cs : List Check)
    (hwf : ∀ c ∈ cs, c.Wf) (hlen : (checks cs).length < 255) :
    ∃ a', exec load (checks cs) 0 a =
      .through (if ∀ c ∈ cs, c.Passes load then 0 else 1) a' := by
  induction cs generalizing a with
  | nil => exact ⟨a, by rw [if_pos fun c hc => by cases hc]; rfl⟩
  | cons c cs ih =>
    rw [checks, length_append] at hlen
    have hmiss : (BitVec.ofNat 8 ((checks cs).length + 1)).toNat = (checks cs).length + 1 := by
      rw [BitVec.toNat_ofNat]
      omega
    obtain ⟨b, hb⟩ := exec_code load a c (BitVec.ofNat 8 ((checks cs).length + 1))
      (hwf c mem_cons_self)
    rw [checks, exec_append, hb]
    by_cases hp : c.Passes load
    · obtain ⟨b', hb'⟩ := ih b (fun c' h => hwf c' (mem_cons_of_mem c h)) (by omega)
      refine ⟨b', ?_⟩
      rw [if_pos hp]
      simp only [forall_mem_cons, hp, true_and]
      exact hb'
    · refine ⟨b, ?_⟩
      rw [if_neg hp, if_neg fun h => hp (h c mem_cons_self), hmiss]
      exact exec_length_add (checks cs) 1 b

theorem Decides.guarded (nr : BitVec 32) (home : Nat) {cs : List Check}
    (hwf : ∀ c ∈ cs, c.Wf) (hlen : (checks cs).length < 254) :
    Decides load (load home) k (guarded nr k home cs)
      (load home = nr ∧ ∀ c ∈ cs, c.Passes load) := by
  have hskip : (BitVec.ofNat 8 ((checks cs).length + 2)).toNat =
      (checks cs ++ [Insn.ret k, .ld home]).length + 0 := by
    rw [BitVec.toNat_ofNat, length_append]
    change _ = (checks cs).length + 2 + 0
    omega
  obtain ⟨b, hb⟩ := exec_checks load (load home) cs hwf (by omega)
  constructor
  · rintro ⟨hnr, hall⟩
    rw [Bpf.guarded, exec, if_pos hnr]
    change exec load (checks cs ++ [.ret k, .ld home]) 0 _ = _
    rw [exec_append, hb, if_pos hall]
    rfl
  · intro hnot
    rw [Bpf.guarded, exec]
    by_cases hnr : load home = nr
    · have hfail : ¬ ∀ c ∈ cs, c.Passes load := fun h => hnot ⟨hnr, h⟩
      rw [if_pos hnr]
      change exec load (checks cs ++ [.ret k, .ld home]) 0 _ = _
      rw [exec_append, hb, if_neg hfail]
      rfl
    · rw [if_neg hnr, hskip, exec_length_add]

end CosmoRuby.Lib.Bpf
