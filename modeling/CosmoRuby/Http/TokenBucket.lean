import Mathlib.Data.List.Count
import Mathlib.Tactic.Common
import CosmoRuby.Lib.Reach

/-!
# Token buckets

`AcquireToken` of `tokenbucket.c`, called from any number of threads. A call reads its bucket in one
atomic step and, where it found a token, takes one in a later atomic step; the steps of different
calls may come in any order.
-/

namespace CosmoRuby.Http

open Lib List

/-! ## The calls -/

def bucketIndex (x : UInt32) (c : Nat) : Nat := x.toNat >>> (32 - c)

/-- The buckets, with the calls that have read a positive count and not yet taken their token, each
by its bucket, and what the other calls returned. -/
structure TokenState where
  b : Nat → Int8
  calls : List Nat
  returned : List (Nat × Int8)

inductive TokenEvent where
  /-- The load of a new call `AcquireToken(b, x, c)`. -/
  | load (x : UInt32)
  /-- The fetch-add of a call on bucket `i`. -/
  | fetchAdd (i : Nat)
  deriving DecidableEq, Repr

def acquireToken (c : Nat) (s : TokenState) : TokenEvent → Option TokenState
  | .load x =>
    let i := bucketIndex x c
    let t := s.b i
    if t ≤ 0 then some { s with returned := (i, t) :: s.returned }
    else some { s with calls := i :: s.calls }
  | .fetchAdd i =>
    if i ∈ s.calls then
      some ⟨Function.update s.b i (s.b i - 1), s.calls.erase i, (i, s.b i) :: s.returned⟩
    else none

def startTokens (b : Nat → Int8) : TokenState := ⟨b, [], []⟩

def TokenState.waiting (s : TokenState) (i : Nat) : Nat := s.calls.count i

def TokenState.acquired (s : TokenState) (i : Nat) : Nat :=
  s.returned.countP fun r => r.1 = i ∧ 0 < r.2

/-- No run through states that satisfy `P` acquires more tokens than the bucket of `x` had. -/
def ConservesTokens (c : Nat) (x : UInt32) (b : Nat → Int8) (P : TokenState → Prop) : Prop :=
  ∀ s, Reaches (acquireToken c) P (startTokens b) s →
    (s.acquired (bucketIndex x c) : Int) ≤ (b (bucketIndex x c)).toInt

/-! ## One bucket -/

structure Bucket where
  count : Int
  waiting : Nat
  acquired : Nat
  deriving DecidableEq, Repr

inductive BucketEvent where
  | load
  | fetchAdd
  deriving DecidableEq, Repr

def decr (v : Int) : Int := if v = -128 then 127 else v - 1

def Bucket.step (k : Bucket) : BucketEvent → Option Bucket
  | .load => if 0 < k.count then some { k with waiting := k.waiting + 1 } else none
  | .fetchAdd =>
    if 0 < k.waiting then
      some ⟨decr k.count, k.waiting - 1, if 0 < k.count then k.acquired + 1 else k.acquired⟩
    else none

def TokenState.bucket (s : TokenState) (i : Nat) : Bucket := ⟨(s.b i).toInt, s.waiting i, s.acquired i⟩

theorem toInt_sub_one (v : Int8) : (v - 1).toInt = decr v.toInt := by
  have hlow := Int8.le_toInt v
  have hhigh := Int8.toInt_lt v
  rw [Int8.toInt_sub, show (1 : Int8).toInt = 1 from rfl, Int.bmod_def]
  unfold decr
  split <;> split <;> omega

theorem acquired_cons (s : TokenState) (i j : Nat) (v : Int8) (calls : List Nat) (b : Nat → Int8) :
    (⟨b, calls, (j, v) :: s.returned⟩ : TokenState).acquired i =
      if j = i ∧ 0 < v then s.acquired i + 1 else s.acquired i := by
  unfold TokenState.acquired
  rw [countP_cons]
  simp only [decide_eq_true_eq]
  split <;> rfl

theorem toInt_pos (v : Int8) : 0 < v ↔ 0 < v.toInt := Int8.lt_iff_toInt_lt

theorem bucket_loaded (s : TokenState) (i : Nat) :
    ({ s with calls := i :: s.calls } : TokenState).bucket i =
      { s.bucket i with waiting := s.waiting i + 1 } := by
  unfold TokenState.bucket TokenState.waiting
  dsimp only
  rw [count_cons_self]
  rfl

theorem bucket_taken (s : TokenState) (i : Nat) :
    (⟨Function.update s.b i (s.b i - 1), s.calls.erase i, (i, s.b i) :: s.returned⟩ : TokenState).bucket i =
      ⟨decr (s.b i).toInt, s.waiting i - 1,
        if 0 < (s.b i).toInt then s.acquired i + 1 else s.acquired i⟩ := by
  unfold TokenState.bucket TokenState.waiting
  rw [acquired_cons]
  dsimp only
  rw [Function.update_self, toInt_sub_one, count_erase_self]
  simp only [true_and, toInt_pos]

theorem acquireToken_bucket (i : Nat) {c : Nat} {s s' : TokenState} {e : TokenEvent}
    (h : acquireToken c s e = some s') :
    s'.bucket i = s.bucket i ∨ ∃ e', (s.bucket i).step e' = some (s'.bucket i) := by
  cases e with
  | load x =>
    unfold acquireToken at h
    dsimp only at h
    split_ifs at h with ht
    · -- the call returns what it read
      cases h
      left
      have hacq : ∀ j, ¬(j = i ∧ 0 < s.b (bucketIndex x c)) := fun j hj => Int8.not_lt.mpr ht hj.2
      unfold TokenState.bucket
      rw [acquired_cons, if_neg (hacq _)]
      rfl
    · cases h
      by_cases hi : bucketIndex x c = i
      · right
        refine ⟨.load, ?_⟩
        have hpos : 0 < (s.bucket i).count := by
          rw [← hi]
          exact (toInt_pos _).mp (Int8.not_le.mp ht)
        rw [Bucket.step, if_pos hpos, hi, bucket_loaded]
        rfl
      · left
        unfold TokenState.bucket TokenState.waiting
        dsimp only
        rw [count_cons_of_ne hi]
        rfl
  | fetchAdd j =>
    unfold acquireToken at h
    dsimp only at h
    split_ifs at h with hj
    cases h
    by_cases hi : j = i
    · subst hi
      right
      have hpos : 0 < (s.bucket j).waiting := List.count_pos_iff.mpr hj
      refine ⟨.fetchAdd, ?_⟩
      rw [Bucket.step, if_pos hpos, bucket_taken]
      rfl
    · left
      unfold TokenState.bucket TokenState.waiting
      rw [acquired_cons, if_neg fun h => hi h.1]
      dsimp only
      rw [Function.update_of_ne (Ne.symm hi), count_erase_of_ne (Ne.symm hi)]

theorem bucket_acquireToken {c : Nat} {x : UInt32} {s : TokenState} {e : BucketEvent} {k : Bucket}
    (h : (s.bucket (bucketIndex x c)).step e = some k) :
    ∃ e' s', acquireToken c s e' = some s' ∧ s'.bucket (bucketIndex x c) = k := by
  cases e with
  | load =>
    rw [Bucket.step] at h
    split_ifs at h with hpos
    cases h
    refine ⟨.load x, _, if_neg (Int8.not_le.mpr ((toInt_pos _).mpr hpos)), ?_⟩
    exact bucket_loaded s _
  | fetchAdd =>
    unfold Bucket.step at h
    by_cases hpos : 0 < (s.bucket (bucketIndex x c)).waiting
    swap
    · exact absurd ((if_neg hpos).symm.trans h) (Option.some_ne_none k).symm
    obtain rfl := Option.some.inj ((if_pos hpos).symm.trans h)
    refine ⟨.fetchAdd (bucketIndex x c), _, if_pos (List.count_pos_iff.mp hpos), ?_⟩
    exact bucket_taken s _

/-! ## How far a bucket is driven down -/

variable {k k' : Bucket} {e : BucketEvent} {t : Int}

/-- What holds of a bucket of `t` tokens with at most 129 calls waiting: there is room for every call
that waits once it is empty, and each token acquired is missing from it. -/
structure BucketInv (t : Int) (k : Bucket) : Prop where
  room : k.count ≤ 0 → -128 ≤ k.count - k.waiting
  acquired : k.acquired + max k.count 0 ≤ t

theorem bucketInv_step (hinv : BucketInv t k) (hwait : k.waiting ≤ 129) (h : k.step e = some k') :
    BucketInv t k' := by
  obtain ⟨v, w, a⟩ := k
  obtain ⟨hroom, hacq⟩ := hinv
  dsimp only at hroom hacq hwait
  cases e with
  | load =>
    rw [Bucket.step] at h
    split_ifs at h with hpos
    cases h
    exact ⟨fun hle => absurd hpos (Int.not_lt.mpr hle), hacq⟩
  | fetchAdd =>
    rw [Bucket.step] at h
    split_ifs at h with hpos hcount
    all_goals
      cases h
      dsimp only at hpos hcount
      -- the count is at least one above the lowest that a signed byte has
      have hdecr : decr v = v - 1 := if_neg (by omega)
      constructor
      · dsimp only
        omega
      · dsimp only
        omega

theorem bucketInv_reaches (ht : 0 ≤ t) (h : Reaches Bucket.step (fun k => k.waiting ≤ 129) ⟨t, 0, 0⟩ k) :
    BucketInv t k := by
  refine h.invariant (BucketInv t) ⟨fun h => ?_, ?_⟩ fun k e k' hk _ hinv hstep =>
    bucketInv_step hinv hk hstep
  · dsimp only at h ⊢
    omega
  · dsimp only
    omega

/-! ## A bucket that is driven too far down -/

section Overdraw

variable {n w a : Nat} {v : Int}

theorem step_load (hv : 0 < v) : (⟨v, w, a⟩ : Bucket).step .load = some ⟨v, w + 1, a⟩ := if_pos hv

theorem step_fetchAdd : (⟨v, w + 1, a⟩ : Bucket).step .fetchAdd =
    some ⟨decr v, w, if 0 < v then a + 1 else a⟩ := by
  rw [Bucket.step, if_pos (Nat.succ_pos w)]
  rfl

theorem reaches_acquire (hn : 0 < n) (hv : 0 < v) :
    Reaches Bucket.step (fun k => k.waiting ≤ n) ⟨v, 0, a⟩ ⟨v - 1, 0, a + 1⟩ := by
  have hload : Reaches Bucket.step (fun k => k.waiting ≤ n) ⟨v, 0, a⟩ ⟨v, 0 + 1, a⟩ :=
    .tail (.refl (Nat.zero_le n)) .load (step_load hv) hn
  refine .tail hload .fetchAdd ?_ (Nat.zero_le n)
  rw [step_fetchAdd, if_pos hv, decr, if_neg (by omega)]

theorem reaches_one (hn : 0 < n) (m : Nat) :
    Reaches Bucket.step (fun k => k.waiting ≤ n) ⟨1 + m, 0, a⟩ ⟨1, 0, a + m⟩ := by
  induction m generalizing a with
  | zero => exact .refl (Nat.zero_le n)
  | succ m ih =>
    have hfirst := reaches_acquire (a := a) (v := 1 + (m + 1 : Nat)) hn (by omega)
    have hrest := ih (a := a + 1)
    rw [show 1 + ((m + 1 : Nat) : Int) - 1 = 1 + m by omega] at hfirst
    rw [show a + 1 + m = a + (m + 1) by omega] at hrest
    exact hfirst.trans hrest

theorem reaches_loads (hv : 0 < v) (m : Nat) (hm : m ≤ n) :
    Reaches Bucket.step (fun k => k.waiting ≤ n) ⟨v, 0, a⟩ ⟨v, m, a⟩ := by
  induction m with
  | zero => exact .refl (Nat.zero_le n)
  | succ m ih => exact .tail (ih (Nat.le_of_succ_le hm)) .load (step_load hv) hm

theorem reaches_fetchAdds (m : Nat) (hm : m ≤ 128) (hn : w + m ≤ n) :
    Reaches Bucket.step (fun k => k.waiting ≤ n) ⟨0, w + m, a⟩ ⟨-m, w, a⟩ := by
  induction m generalizing w with
  | zero => exact .refl hn
  | succ m ih =>
    have hrest := ih (w := w + 1) (by omega) (by omega)
    rw [show w + 1 + m = w + (m + 1) by omega] at hrest
    refine .tail hrest .fetchAdd ?_ (show w ≤ n by omega)
    rw [step_fetchAdd, if_neg (by omega), decr, if_neg (by omega)]
    push_cast
    rw [Int.neg_add, Int.sub_eq_add_neg]

theorem reaches_overdraw (hn : 130 ≤ n) :
    Reaches Bucket.step (fun k => k.waiting ≤ n) ⟨1, 0, a⟩ ⟨126, 0, a + 2⟩ := by
  have hloads : Reaches Bucket.step (fun k => k.waiting ≤ n) ⟨1, 0, a⟩ ⟨1, 129 + 1, a⟩ :=
    reaches_loads (by decide) 130 hn
  have hfirst : Reaches Bucket.step (fun k => k.waiting ≤ n) ⟨1, 0, a⟩ ⟨0, 1 + 128, a + 1⟩ :=
    .tail hloads .fetchAdd step_fetchAdd (show 129 ≤ n by omega)
  -- the lowest count of a signed byte, with one call left
  have hlow := hfirst.trans (reaches_fetchAdds 128 (Nat.le_refl 128) (show 1 + 128 ≤ n by omega))
  have hwrap : Reaches Bucket.step (fun k => k.waiting ≤ n) ⟨1, 0, a⟩ ⟨127, 0, a + 1⟩ :=
    .tail hlow .fetchAdd step_fetchAdd (Nat.zero_le n)
  exact hwrap.trans (reaches_acquire (by omega) (by decide))

end Overdraw

/-! ## Conservation -/

theorem bucket_startTokens (b : Nat → Int8) (i : Nat) :
    (startTokens b).bucket i = ⟨(b i).toInt, 0, 0⟩ := rfl

theorem exists_overdraw {c : Nat} {x : UInt32} {b : Nat → Int8} {n : Nat} (hn : 130 ≤ n)
    (ht : 0 < b (bucketIndex x c)) :
    ∃ s, Reaches (acquireToken c) (fun s => s.waiting (bucketIndex x c) ≤ n) (startTokens b) s ∧
      (s.acquired (bucketIndex x c) : Int) = (b (bucketIndex x c)).toInt + 1 := by
  have hpos := (toInt_pos _).mp ht
  obtain ⟨m, hm⟩ : ∃ m : Nat, (b (bucketIndex x c)).toInt = 1 + m :=
    ⟨((b (bucketIndex x c)).toInt - 1).toNat, by omega⟩
  have hrun := (reaches_one (a := 0) (by omega) m).trans (reaches_overdraw (a := 0 + m) hn)
  rw [← hm, ← bucket_startTokens] at hrun
  obtain ⟨s, hs, hbucket⟩ := hrun.lift (TokenState.bucket · (bucketIndex x c))
    (fun _ _ _ h => bucket_acquireToken h)
  refine ⟨s, hs, ?_⟩
  have hacq : s.acquired (bucketIndex x c) = 0 + m + 2 := congrArg Bucket.acquired hbucket
  rw [hacq, hm]
  omega

theorem reaches_empty {P : Bucket → Prop} (h : Reaches Bucket.step P ⟨0, 0, 0⟩ k) : k = ⟨0, 0, 0⟩ := by
  refine h.invariant (· = ⟨0, 0, 0⟩) rfl ?_
  rintro _ e k' _ _ rfl hstep
  cases e <;> cases hstep

/-- A bucket conserves its tokens, whatever the order of the steps, where at most `n` calls on it wait
between their two steps at a time: if it has none, or if `n` is at most 129. -/
theorem conservesTokens_iff (c : Nat) (x : UInt32) (b : Nat → Int8) (n : Nat)
    (ht : 0 ≤ b (bucketIndex x c)) :
    ConservesTokens c x b (fun s => s.waiting (bucketIndex x c) ≤ n) ↔
      b (bucketIndex x c) = 0 ∨ n ≤ 129 := by
  constructor
  · intro hall
    by_contra hnot
    rw [not_or] at hnot
    have hpos : 0 < b (bucketIndex x c) := Int8.lt_of_le_of_ne ht (Ne.symm hnot.1)
    obtain ⟨s, hs, hacq⟩ := exists_overdraw (n := n) (by omega) hpos
    have hle := hall s hs
    omega
  · intro hcond s hs
    have hproj : Reaches Bucket.step (fun k => k.waiting ≤ n)
        ((startTokens b).bucket (bucketIndex x c)) (s.bucket (bucketIndex x c)) :=
      Reaches.project (TokenState.bucket · (bucketIndex x c)) (fun u a v h => acquireToken_bucket _ h) hs
    rw [bucket_startTokens] at hproj
    rcases hcond with hzero | hn
    · rw [hzero] at hproj ⊢
      have hacq : s.acquired (bucketIndex x c) = 0 := congrArg Bucket.acquired (reaches_empty hproj)
      rw [hacq]
      decide
    · have hinv := bucketInv_reaches (Int8.le_iff_toInt_le.mp ht) (hproj.mono fun _ hk => Nat.le_trans hk hn)
      have hacq := hinv.acquired
      dsimp only [TokenState.bucket] at hacq
      omega

theorem conservesTokens_full :
    ConservesTokens 22 0x7F000001 (fun _ => 127) (fun s => s.waiting (bucketIndex 0x7F000001 22) ≤ 129) :=
  (conservesTokens_iff _ _ _ _ (by decide)).mpr (.inr (by decide))

/-- One token, 130 calls between their two steps, and a call after them. -/
theorem not_conservesTokens_one :
    ¬ConservesTokens 22 0x7F000001 (fun _ => 1) (fun _ => True) := by
  intro hall
  obtain ⟨s, hs, hacq⟩ := exists_overdraw (c := 22) (x := 0x7F000001) (b := fun _ => 1) (n := 130)
    (by decide) (by decide)
  have hle := hall s (hs.mono fun _ _ => trivial)
  rw [hacq] at hle
  exact absurd hle (by decide)

end CosmoRuby.Http
