import CosmoRuby.Http.Message
import CosmoRuby.Lib.Feed

/-!
# The parser as a byte machine

`byteRound` is what the parser does with one byte, wherever the loops around it stand.  The machine
built from it reads each byte once; `parseLoop` is this machine, except that leaving an arm's own loop
at `n` increments `r->i` twice (`overshoot`).
-/

namespace CosmoRuby.Http

open Lib

variable {realloc : Nat → Bool} {p : Bytes} {n : Nat}

/-! ## One byte -/

def byteRound (realloc : Nat → Bool) (p : Bytes) (r : HttpMessage) (ch : UInt8) : Round :=
  match r.t with
  | .start => startArm r ch
  | .method => methodRound r ch
  | .uri => uriRound r ch
  | .version => versionArm p r ch
  | .status => statusRound r ch
  | .message => messageRound r ch
  | .cr => crArm r ch
  | .lf1 => lf1Arm r ch
  | .name => nameRound r ch
  | .colon =>
    if ch = chSpace ∨ ch = chTab then .brk r
    else valueRound realloc p { r with a := r.i, t := .value } ch
  | .value => valueRound realloc p r ch
  | .lf2 => lf2Arm r ch

/-- The machine's state: the message and whether the last byte was passed over inside an arm's own
loop. -/
abbrev Cursor := HttpMessage × Bool

def byteStep (realloc : Nat → Bool) (p : Bytes) (s : Cursor) (ch : UInt8) : Fed Cursor Int :=
  match byteRound realloc p s.1 ch with
  | .brk r => .more ({ r with i := r.i + 1 }, false)
  | .ret rc r => .done rc (r, false)
  | .go r => .more ({ r with i := r.i + 1 }, true)

/-! ## What one byte can do -/

section

variable (ch : UInt8)

def uriByte : Bool := ch != chSpace && !isControl ch

def messageByte : Bool := !isControl ch

def valueByte : Bool := ch == chTab || !isControl ch

def isEolByte : Bool := ch == chCr || ch == chLf

def isBlank : Bool := ch == chSpace || ch == chTab

end

inductive Step (realloc : Nat → Bool) (p : Bytes) (r : HttpMessage) (ch : UInt8) : Round → Prop
  | reject (r' : HttpMessage) : Step realloc p r ch (.ret (-1) r')
  | lead (ht : r.t = .start) (hch : isEolByte ch = true) : Step realloc p r ch (.brk r)
  | requestStart (ht : r.t = .start) (hch : kHttpToken ch = true) (hty : r.type = .kHttpRequest) :
      Step realloc p r ch
        (.brk { r with t := .method, method := (kToUpper ch).toUInt64, a := 8 })
  | responseStart (ht : r.t = .start) (hch : kHttpToken ch = true)
      (hty : r.type = .kHttpResponse) :
      Step realloc p r ch (.brk { r with t := .version, a := r.i })
  | methodEnd (ht : r.t = .method) (hch : ch = chSpace) :
      Step realloc p r ch (.brk { r with a := r.i + 1, t := .uri })
  | methodByte (ht : r.t = .method) (hch : kHttpToken ch = true) (m : UInt64) :
      Step realloc p r ch (.go { r with method := m, a := r.a + 8 })
  | uriSpace (ht : r.t = .uri) (hch : ch = chSpace) (hne : r.i ≠ r.a) :
      Step realloc p r ch
        (.brk { r with uri := ⟨short r.a, short r.i⟩, a := r.i + 1, t := .version })
  | uriEol (ht : r.t = .uri) (hch : isEolByte ch = true) (hne : r.i ≠ r.a) :
      Step realloc p r ch
        (.brk { r with uri := ⟨short r.a, short r.i⟩, version := 9, t := lineEnd ch })
  | uriByte (ht : r.t = .uri) (hch : uriByte ch = true) : Step realloc p r ch (.go r)
  | versionByte (ht : r.t = .version) (hsp : ch ≠ chSpace) (hch : isEolByte ch = false) :
      Step realloc p r ch (.brk r)
  | requestVersion (v : Nat) (ht : r.t = .version) (hch : ch = chSpace ∨ isEolByte ch = true)
      (hlen : r.i = r.a + 8) (hv : isVersion p r.a = true) (hty : r.type = .kHttpRequest) :
      Step realloc p r ch (.brk { r with version := v, t := lineEnd ch })
  | responseVersion (v : Nat) (ht : r.t = .version) (hch : ch = chSpace ∨ isEolByte ch = true)
      (hlen : r.i = r.a + 8) (hv : isVersion p r.a = true) (hty : r.type = .kHttpResponse) :
      Step realloc p r ch (.brk { r with version := v, t := .status })
  | statusSpace (ht : r.t = .status) (hch : ch = chSpace) (hst : 100 ≤ r.status) :
      Step realloc p r ch (.brk { r with a := r.i + 1, t := .message })
  | statusEol (ht : r.t = .status) (hch : isEolByte ch = true) (hst : 100 ≤ r.status) :
      Step realloc p r ch (.brk { r with t := lineEnd ch })
  | statusDigit (ht : r.t = .status) (hch : isdigit ch = true)
      (hst : r.status * 10 + (ch.toNat - 48) ≤ 999) :
      Step realloc p r ch (.go { r with status := r.status * 10 + (ch.toNat - 48) })
  | messageEol (ht : r.t = .message) (hch : isEolByte ch = true) :
      Step realloc p r ch (.brk { r with message := ⟨short r.a, short r.i⟩, t := lineEnd ch })
  | messageByte (ht : r.t = .message) (hch : messageByte ch = true) : Step realloc p r ch (.go r)
  | crLf (ht : r.t = .cr) (hch : ch = chLf) : Step realloc p r ch (.brk { r with t := .lf1 })
  | blankCr (ht : r.t = .lf1) (hch : ch = chCr) : Step realloc p r ch (.brk { r with t := .lf2 })
  | blankLf (ht : r.t = .lf1 ∨ r.t = .lf2) (hch : ch = chLf) :
      Step realloc p r ch (.ret (r.i + 1) { r with i := r.i + 1 })
  | nameStart (ht : r.t = .lf1) (hch : kHttpToken ch = true) :
      Step realloc p r ch (.brk { r with k := ⟨short r.i, r.k.b⟩, t := .name })
  | nameEnd (ht : r.t = .name) (hch : ch = 0x3A) :
      Step realloc p r ch (.brk { r with k := ⟨r.k.a, short r.i⟩, t := .colon })
  | nameByte (ht : r.t = .name) (hch : kHttpToken ch = true) : Step realloc p r ch (.go r)
  | pad (ht : r.t = .colon) (hch : isBlank ch = true) : Step realloc p r ch (.brk r)
  | valueEmpty (ht : r.t = .colon) (hch : isEolByte ch = true) :
      Step realloc p r ch
        (.brk { storeHeader realloc p { r with a := r.i, t := .value }
          ⟨short r.i, short (trimEnd p r.i r.i)⟩ with t := lineEnd ch })
  | valueFirst (ht : r.t = .colon) (hch : valueByte ch = true) (hbl : isBlank ch = false) :
      Step realloc p r ch (.go { r with a := r.i, t := .value })
  | valueEol (ht : r.t = .value) (hch : isEolByte ch = true) :
      Step realloc p r ch
        (.brk { storeHeader realloc p r ⟨short r.a, short (trimEnd p r.a r.i)⟩
          with t := lineEnd ch })
  | valueByte (ht : r.t = .value) (hch : valueByte ch = true) : Step realloc p r ch (.go r)

theorem isEolByte_iff (ch : UInt8) : isEolByte ch = true ↔ ch = chCr ∨ ch = chLf := by
  simp [isEolByte]

theorem isBlank_iff (ch : UInt8) : isBlank ch = true ↔ ch = chSpace ∨ ch = chTab := by
  simp [isBlank]

theorem isControl_of_isEolByte (ch : UInt8) (h : isEolByte ch = true) : isControl ch = true := by
  rcases (isEolByte_iff ch).mp h with rfl | rfl <;> rfl

theorem valueByte_iff (ch : UInt8) :
    valueByte ch = true ↔ ¬((ch < 0x20 ∧ ch ≠ chTab) ∨ (0x7F ≤ ch ∧ ch < 0xA0)) := by
  simp only [valueByte, isControl, Bool.or_eq_true, beq_iff_eq, Bool.not_eq_true',
    Bool.or_eq_false_iff, decide_eq_false_iff_not, Bool.and_eq_false_iff]
  constructor
  · rintro (rfl | ⟨hlo, hhi⟩)
    · decide
    · rintro (⟨h, -⟩ | ⟨h, h'⟩)
      · exact hlo h
      · exact hhi.elim (fun hn => hn h) (fun hn => hn h')
  · intro h
    by_cases htab : ch = chTab
    · exact .inl htab
    · refine .inr ⟨fun hlt => h (.inl ⟨hlt, htab⟩), ?_⟩
      by_cases h7f : 0x7F ≤ ch
      · exact .inr fun hlt => h (.inr ⟨h7f, hlt⟩)
      · exact .inl h7f

variable {ch : UInt8}

theorem not_isEolByte_of_valueByte (h : valueByte ch = true) : ¬(ch = chCr ∨ ch = chLf) := by
  rintro (rfl | rfl) <;> revert h <;> decide

theorem valueRound_step (r r0 : HttpMessage) (ch : UInt8)
    (heol : isEolByte ch = true → Step realloc p r0 ch
      (.brk { storeHeader realloc p r ⟨short r.a, short (trimEnd p r.a r.i)⟩ with t := lineEnd ch }))
    (hgo : valueByte ch = true → Step realloc p r0 ch (.go r)) :
    Step realloc p r0 ch (valueRound realloc p r ch) := by
  unfold valueRound ebadmsg
  dsimp only
  split_ifs with h1 h2
  · exact heol ((isEolByte_iff ch).mpr h1)
  · exact .reject _
  · exact hgo ((valueByte_iff ch).mpr h2)

theorem byteRound_step (realloc : Nat → Bool) (p : Bytes) (r : HttpMessage) (ch : UInt8) :
    Step realloc p r ch (byteRound realloc p r ch) := by
  unfold byteRound
  split <;> rename_i ht
  · unfold startArm ebadmsg
    split_ifs with h1 h2
    · exact .lead ht ((isEolByte_iff ch).mpr h1)
    · exact .reject _
    · simp only [Bool.not_eq_true', Bool.not_eq_false] at h2
      split
      · exact .requestStart ht h2 ‹_›
      · exact .responseStart ht h2 ‹_›
  · unfold methodRound ebadmsg
    split_ifs with h1 h2
    · exact .methodEnd ht h1
    · exact .reject _
    · exact .methodByte ht (by simpa using (not_or.mp h2).2) _
  · unfold uriRound ebadmsg
    dsimp only
    split_ifs with h1 h2 h3 h4
    · exact .reject _
    · exact .uriSpace ht h3 h2
    · exact .uriEol ht ((isEolByte_iff ch).mpr (h1.resolve_left h3)) h2
    · exact .reject _
    · exact .uriByte ht (by simp [Http.uriByte, (not_or.mp h1).1, h4])
  · unfold versionArm ebadmsg
    dsimp only
    split_ifs with h1 h2
    · have hstop : ch = chSpace ∨ isEolByte ch = true := h1.imp_right (isEolByte_iff ch).mpr
      have hlen : r.i = r.a + 8 := by have := h2.1; omega
      split
      · exact .requestVersion _ ht hstop hlen h2.2 ‹_›
      · exact .responseVersion _ ht hstop hlen h2.2 ‹_›
    · exact .reject _
    · obtain ⟨hsp, heol⟩ := not_or.mp h1
      exact .versionByte ht hsp (Bool.eq_false_iff.mpr (mt (isEolByte_iff ch).mp heol))
  · unfold statusRound ebadmsg
    dsimp only
    split_ifs with h1 h2 h3 h4 h5
    · exact .reject _
    · exact .statusSpace ht h3 (by omega)
    · exact .statusEol ht ((isEolByte_iff ch).mpr (h1.resolve_left h3)) (by omega)
    · exact .reject _
    · exact .statusDigit ht h4 (by omega)
    · exact .reject _
  · unfold messageRound ebadmsg
    split_ifs with h1 h2
    · exact .messageEol ht ((isEolByte_iff ch).mpr h1)
    · exact .reject _
    · exact .messageByte ht (by simp [Http.messageByte, h2])
  · unfold crArm ebadmsg
    split_ifs with h1
    · exact .reject _
    · exact .crLf ht (not_not.mp h1)
  · unfold lf1Arm ebadmsg
    split_ifs with h1 h2 h3
    · exact .blankCr ht h1
    · exact .blankLf (.inl ht) h2
    · exact .reject _
    · exact .nameStart ht (by simpa using h3)
  · unfold nameRound ebadmsg
    split_ifs with h1 h2
    · exact .nameEnd ht h1
    · exact .reject _
    · exact .nameByte ht (by simpa using h2)
  · split_ifs with h1
    · exact .pad ht ((isBlank_iff ch).mpr h1)
    · have hbl : isBlank ch = false := by simpa using mt (isBlank_iff ch).mp h1
      exact valueRound_step { r with a := r.i, t := .value } r ch (fun h => .valueEmpty ht h)
        (fun h => .valueFirst ht h hbl)
  · exact valueRound_step r r ch (fun h => .valueEol ht h) (fun h => .valueByte ht h)
  · unfold lf2Arm ebadmsg
    split_ifs with h1
    · exact .blankLf (.inr ht) h1
    · exact .reject _

theorem storeHeader_i (r : HttpMessage) (v : HttpSlice) : (storeHeader realloc p r v).i = r.i := by
  unfold storeHeader
  split
  · split <;> rfl
  · rfl

def loopState : HttpState → HttpState
  | .colon => .value
  | t => t

variable {r r' : HttpMessage}

theorem byteRound_go (h : byteRound realloc p r ch = .go r') : r'.i = r.i ∧ r'.t = loopState r.t ∧
      (r.t = .method ∨ r.t = .uri ∨ r.t = .status ∨ r.t = .message ∨ r.t = .name ∨
        r.t = .colon ∨ r.t = .value) := by
  have hstep := byteRound_step realloc p r ch
  rw [h] at hstep
  cases hstep <;> rename_i ht _ <;> simp_all [loopState]

theorem byteRound_brk_i (h : byteRound realloc p r ch = .brk r') : r'.i = r.i := by
  have hstep := byteRound_step realloc p r ch
  rw [h] at hstep
  cases hstep <;> first | rfl | exact storeHeader_i _ _

theorem byteRound_ret {rc : Int} (h : byteRound realloc p r ch = .ret rc r') :
    rc = -1 ∨ (rc = r.i + 1 ∧ r' = { r with i := r.i + 1 } ∧ ch = chLf ∧
      (r.t = .lf1 ∨ r.t = .lf2)) := by
  have hstep := byteRound_step realloc p r ch
  rw [h] at hstep
  cases hstep with
  | reject => exact .inl rfl
  | blankLf ht hch => exact .inr ⟨rfl, rfl, hch, ht⟩

/-! ## The loops are the machine -/

theorem switchArm_eq (r : HttpMessage) (hi : r.i < n) :
    switchArm realloc p n r =
      match byteRound realloc p r (byteAt p r.i) with
      | .brk r' => .brk r'
      | .ret rc r' => .ret rc r'
      | .go r' =>
        if r'.i + 1 = n then .brk { r' with i := r'.i + 1 }
        else switchArm realloc p n { r' with i := r'.i + 1 } := by
  -- an arm's loop has `n - r.i` rounds left, so the first one is there to unfold
  have hfuel : n - r.i = (n - (r.i + 1)) + 1 := by omega
  cases hb : byteRound realloc p r (byteAt p r.i) with
  | go r' =>
    obtain ⟨hri, hrt, hloop⟩ := byteRound_go hb
    rcases hloop with ht | ht | ht | ht | ht | ht | ht <;>
      simp only [byteRound, ht, loopState] at hb hrt
    case inr.inr.inr.inr.inr.inl =>
      split_ifs at hb with hws
      simp only [switchArm, ht, if_neg hws, hfuel, armLoop, hb, hrt, hri]
    all_goals simp only [switchArm, ht, hfuel, armLoop, hb, hrt, hri]
  | brk r' =>
    simp only [byteRound] at hb
    cases ht : r.t <;> simp only [ht] at hb <;> simp only [switchArm, ht]
    case colon =>
      split_ifs at hb ⊢ with hws
      · exact hb
      · simp only [hfuel, armLoop, hb]
    all_goals first | exact hb | simp only [hfuel, armLoop, hb]
  | ret rc r' =>
    simp only [byteRound] at hb
    cases ht : r.t <;> simp only [ht] at hb <;> simp only [switchArm, ht]
    case colon =>
      split_ifs at hb ⊢ with hws
      simp only [hfuel, armLoop, hb]
    all_goals first | exact hb | simp only [hfuel, armLoop, hb]

/-- Leaving an arm's loop at `n` increments `r->i` once there and once in the outer loop. -/
def overshoot (s : Cursor) : HttpMessage :=
  if s.2 then { s.1 with i := s.1.i + 1 } else s.1

def loopResult : Fed Cursor Int → Option Int × HttpMessage
  | .more s => (none, overshoot s)
  | .done rc s => (some rc, s.1)

theorem feed_flag (r : HttpMessage) (b : Bool) (ch : UInt8) (w : Bytes) :
    feed (byteStep realloc p) (r, b) (ch :: w) = feed (byteStep realloc p) (r, false) (ch :: w) :=
  rfl

theorem slice_cons (i : Nat) (hi : i < n) (hn : n ≤ p.length) :
    slice p i n = byteAt p i :: slice p (i + 1) n := by
  have hlen : i < (p.take n).length := by rw [List.length_take]; omega
  rw [slice, drop_byteAt _ _ hlen, byteAt_take _ _ _ hi, slice]

theorem slice_self (i : Nat) : slice p i i = [] := by
  rw [slice, List.drop_eq_nil_of_le (by rw [List.length_take]; omega)]

theorem parseLoop_eq (hn : n ≤ p.length) (fuel : Nat) (r : HttpMessage) (hi : r.i ≤ n)
    (hfuel : n - r.i ≤ fuel) :
    parseLoop realloc p n fuel r =
      loopResult (feed (byteStep realloc p) (r, false) (slice p r.i n)) := by
  -- on the bytes left: a pass over an arm's loop is traced byte by byte, so the outer loop's own
  -- rounds do not match the recursion
  induction hk : n - r.i using Nat.strong_induction_on generalizing fuel r with
  | h k ih =>
    by_cases hlt : r.i < n
    · obtain ⟨fuel, rfl⟩ : ∃ f, fuel = f + 1 := ⟨fuel - 1, by omega⟩
      rw [parseLoop, if_pos hlt, switchArm_eq r hlt, slice_cons _ hlt hn]
      cases hb : byteRound realloc p r (byteAt p r.i) with
      | brk r' =>
        have hri := byteRound_brk_i hb
        have hstep : byteStep realloc p (r, false) (byteAt p r.i) =
            .more ({ r' with i := r'.i + 1 }, false) := by simp only [byteStep, hb]
        rw [feed_cons_more hstep]
        have hrec := ih (n - (r.i + 1)) (by omega) fuel { r' with i := r'.i + 1 }
          (by dsimp only; omega) (by dsimp only; omega) (by dsimp only; omega)
        dsimp only at hrec ⊢
        rw [hrec, hri]
      | ret rc r' =>
        have hstep : byteStep realloc p (r, false) (byteAt p r.i) = .done rc (r', false) := by
          simp only [byteStep, hb]
        rw [feed_cons_done hstep]
        rfl
      | go r' =>
        have hri := (byteRound_go hb).1
        have hstep : byteStep realloc p (r, false) (byteAt p r.i) =
            .more ({ r' with i := r'.i + 1 }, true) := by simp only [byteStep, hb]
        rw [feed_cons_more hstep]
        dsimp only
        by_cases hend : r'.i + 1 = n
        · rw [if_pos hend, ← hri, hend, slice_self]
          dsimp only
          rw [feed_nil]
          cases fuel with
          | zero => simp only [parseLoop, loopResult, overshoot, if_true]
          | succ fuel =>
            simp only [parseLoop, loopResult, overshoot, if_true]
            rw [if_neg (by omega)]
        · have hlt' : r'.i + 1 < n := by omega
          rw [if_neg hend]
          have hrec := ih (n - (r.i + 1)) (by omega) (fuel + 1) { r' with i := r'.i + 1 }
            (by dsimp only; omega) (by dsimp only; omega) (by dsimp only; omega)
          rw [parseLoop, if_pos (by exact hlt')] at hrec
          dsimp only at hrec
          rw [hrec, ← hri, slice_cons _ hlt' hn, feed_flag _ true]
    · have hin : r.i = n := by omega
      rw [hin, slice_self, feed_nil]
      cases fuel with
      | zero => rfl
      | succ fuel => rw [parseLoop, if_neg hlt]; rfl

def finish (c : Nat) (f : Fed Cursor Int) : Int × HttpMessage :=
  match loopResult f with
  | (some rc, r) => (rc, r)
  | (none, r) => if r.i < c then (0, r) else (-1, r)

theorem parseHttpMessage_eq {c : Nat} (r : HttpMessage) (hc : n ≤ c) (hn : n ≤ p.length)
    (hi : r.i ≤ min n SHRT_MAX) :
    parseHttpMessage realloc r p n c =
      finish (min c SHRT_MAX)
        (feed (byteStep realloc p) (r, false) (slice p r.i (min n SHRT_MAX))) := by
  have hloop : parseLoop realloc p (min n SHRT_MAX) (min n SHRT_MAX - r.i) r =
      loopResult (feed (byteStep realloc p) (r, false) (slice p r.i (min n SHRT_MAX))) :=
    parseLoop_eq (by omega) _ r hi le_rfl
  unfold parseHttpMessage finish
  rw [if_neg (by omega)]
  dsimp only
  exact hloop ▸ rfl

end CosmoRuby.Http
