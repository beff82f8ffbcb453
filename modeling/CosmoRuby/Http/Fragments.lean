import CosmoRuby.Http.Machine

/-!
# Parsing a message that arrives in pieces

`ParseHttpMessage` is called on growing prefixes of one buffer.  A call that ends inside an arm's own
loop leaves `r->i` one past the prefix, so the next call never looks at the byte in between.  As long
as no byte that matters is stepped over in this way, the pieces parse like the whole.
-/

namespace CosmoRuby.Http

open Lib List

variable {realloc : Nat → Bool} {m : Bytes} {c n : Nat} {type : HttpType}

/-! ## Runs of calls -/

def parseFragments (realloc : Nat → Bool) (m : Bytes) (c : Nat) :
    HttpMessage → List Nat → Int × HttpMessage
  | r, [] => (0, r)
  | r, n :: ns =>
    let x := parseHttpMessage realloc r m n c
    if x.1 ≠ 0 ∨ ns = [] then x else parseFragments realloc m c x.2 ns

structure Published where
  method : UInt64
  uri : HttpSlice
  version : Nat
  status : Nat
  message : HttpSlice
  headers : HeaderId → HttpSlice
  xheaders : HttpHeaders

def HttpMessage.published (r : HttpMessage) : Published where
  method := r.method
  uri := r.uri
  version := r.version
  status := r.status
  message := r.message
  headers := r.headers
  xheaders := r.xheaders

def passesOver (t : HttpState) (ch : UInt8) : Bool :=
  match t with
  | .uri => uriByte ch
  | .message => messageByte ch
  | .name => kHttpToken ch
  | .value => valueByte ch
  | _ => false

/-- The state `r` that a call on `n` bytes left behind can be taken up by a call on `n'` bytes: no
byte was stepped over, or the size limit is reached anyway, or the one stepped over is inert and not
the last to arrive. -/
def Resumes (m : Bytes) (n n' : Nat) (r : HttpMessage) : Prop :=
  r.i ≤ n ∨ SHRT_MAX ≤ n ∨ (passesOver r.t (byteAt m n) = true ∧ n + 1 < n')

def SteadyCalls (realloc : Nat → Bool) (m : Bytes) (c : Nat) : HttpMessage → List Nat → Prop
  | r, n :: n' :: ns =>
    let x := parseHttpMessage realloc r m n c
    Resumes m n n' x.2 ∧ (x.1 = 0 → SteadyCalls realloc m c x.2 (n' :: ns))
  | _, _ => True

/-! ## States of the machine on a prefix -/

theorem feed_more_i {p w : Bytes} {s s' : Cursor}
    (h : feed (byteStep realloc p) s w = .more s') : s'.1.i = s.1.i + w.length := by
  have hinv := feed_more_invariant (fun w s' => s'.1.i = s.1.i + w.length) (w := []) rfl
    (fun w s1 x s2 hi hstep => ?_) h
  · simpa using hinv
  · rw [length_append, length_singleton]
    unfold byteStep at hstep
    split at hstep
    · rename_i hb
      cases hstep
      have := byteRound_brk_i hb
      dsimp only
      omega
    · cases hstep
    · rename_i hb
      cases hstep
      have := (byteRound_go hb).1
      dsimp only
      omega

theorem passesOver_go {p : Bytes} {r : HttpMessage} {ch : UInt8}
    (h : passesOver r.t ch = true) : byteRound realloc p r ch = .go r := by
  have hctl : isControl ch = false → isEolByte ch = false := by
    intro hc
    by_contra he
    rw [isControl_of_isEolByte ch (by simpa using he)] at hc
    cases hc
  unfold passesOver at h
  split at h <;> rename_i ht <;> simp only [byteRound, ht]
  · simp only [uriByte, Bool.and_eq_true, bne_iff_ne, ne_eq, Bool.not_eq_true'] at h
    have heol := hctl h.2
    simp only [isEolByte, Bool.or_eq_false_iff, beq_eq_false_iff_ne] at heol
    simp [uriRound, h, heol]
  · simp only [messageByte, Bool.not_eq_true'] at h
    have heol := hctl h
    simp only [isEolByte, Bool.or_eq_false_iff, beq_eq_false_iff_ne] at heol
    simp [messageRound, h, heol]
  · have hcolon := (kHttpToken_visible ch h).2.2
    simp [nameRound, h, hcolon]
  · unfold valueRound
    rw [if_neg (not_isEolByte_of_valueByte h), if_neg ((valueByte_iff ch).mp h)]
  · cases h

/-- `r` is the state after the first `r.i` bytes of `m`, every one of them read. -/
def Reached (realloc : Nat → Bool) (m : Bytes) (type : HttpType) (s : Cursor) : Prop :=
  s.1.i ≤ m.length ∧
    feed (byteStep realloc m) (initHttpMessage type, false) (m.take s.1.i) = .more s

theorem reached_of_feed {s : Cursor} (hn : n ≤ m.length)
    (h : feed (byteStep realloc m) (initHttpMessage type, false) (m.take n) = .more s) :
    s.1.i = n ∧ Reached realloc m type s := by
  have hi := feed_more_i h
  rw [length_take, Nat.min_eq_left hn] at hi
  change s.1.i = 0 + n at hi
  rw [Nat.zero_add] at hi
  exact ⟨hi, by rw [hi]; exact hn, by rw [hi]; exact h⟩

/-- One call on the first `n` bytes. -/
abbrev parsed (realloc : Nat → Bool) (type : HttpType) (m : Bytes) (n c : Nat) : Int × HttpMessage :=
  parseHttpMessage realloc (initHttpMessage type) m n c

theorem parse_init (hc : m.length ≤ c) (hn : n ≤ m.length) :
    parsed realloc type m n c =
      finish (min c SHRT_MAX)
        (feed (byteStep realloc m) (initHttpMessage type, false) (m.take (min n SHRT_MAX))) := by
  rw [parsed, parseHttpMessage_eq _ (by omega) hn (Nat.zero_le _)]
  rfl

theorem parse_resume (hc : m.length ≤ c) (hn : n ≤ m.length) {s : Cursor}
    (hr : Reached realloc m type s)
    (hready : s.1.i < min n SHRT_MAX ∨ (s.1.i = min n SHRT_MAX ∧ s.2 = false)) :
    parseHttpMessage realloc s.1 m n c = parsed realloc type m n c := by
  obtain ⟨r, b⟩ := s
  obtain ⟨-, hfeed⟩ := hr
  dsimp only at *
  have hle : r.i ≤ min n SHRT_MAX := by omega
  rw [parse_init hc hn, parseHttpMessage_eq _ (by omega) hn hle,
    take_eq_append_slice _ _ hle, feed_append_more hfeed]
  rcases hready with hlt | ⟨-, rfl⟩
  · rw [slice_cons _ hlt (by omega), feed_flag r b]
  · rfl

/-! ## From one call to the next -/

theorem reached_overshoot {r : HttpMessage} (hr : Reached realloc m type (r, true))
    (hlt : r.i < m.length) (hpass : passesOver r.t (byteAt m r.i) = true) :
    Reached realloc m type ({ r with i := r.i + 1 }, true) := by
  refine ⟨hlt, ?_⟩
  have hstep : byteStep realloc m (r, true) (byteAt m r.i) =
      .more ({ r with i := r.i + 1 }, true) := by
    simp only [byteStep, passesOver_go hpass]
  dsimp only
  rw [take_succ_byteAt _ _ hlt, feed_append_more hr.2, feed_cons_more hstep, feed_nil]

theorem parse_zero_next (hc : m.length ≤ c) (hn : n < m.length) {n' : Nat} (hlt : n < n')
    (h0 : (parsed realloc type m n c).1 = 0)
    (hres : Resumes m n n' (parsed realloc type m n c).2) :
    ∃ b, Reached realloc m type ((parsed realloc type m n c).2, b) ∧
      (parsed realloc type m n c).2.i < min n' SHRT_MAX := by
  rw [parse_init hc (by omega)] at h0 hres ⊢
  cases hfeed : feed (byteStep realloc m) (initHttpMessage type, false)
      (m.take (min n SHRT_MAX)) with
  | done rc s =>
    -- a finished machine never returns zero
    rw [hfeed] at h0
    obtain ⟨_, x, _, s1, _, _, hlast⟩ := feed_done_invariant (fun _ _ => True) (w := []) trivial
      (fun _ _ _ _ _ _ => trivial) hfeed
    unfold byteStep at hlast
    split at hlast
    · cases hlast
    · rename_i hb
      cases hlast
      rcases byteRound_ret hb with hrc | ⟨hrc, -⟩
      · rw [hrc] at h0; cases h0
      · rw [hrc] at h0
        exact absurd h0 (by simp only [finish, loopResult]; omega)
    · cases hlast
  | more s =>
    obtain ⟨r, b⟩ := s
    rw [hfeed] at h0 hres
    obtain ⟨hri, hreach⟩ := reached_of_feed (by omega) hfeed
    dsimp only at hri
    simp only [finish, loopResult] at h0 hres ⊢
    have hic : (overshoot (r, b)).i < min c SHRT_MAX := by
      by_contra hge
      rw [if_neg hge] at h0
      cases h0
    rw [if_pos hic] at hres ⊢
    cases b with
    | false =>
      simp only [overshoot, Bool.false_eq_true, if_false] at hic ⊢
      exact ⟨false, hreach, by omega⟩
    | true =>
      simp only [overshoot, if_true, Resumes] at hic hres ⊢
      have hin : r.i = n := by omega
      rcases hres with h1 | h1 | ⟨hpass, h1⟩
      · omega
      · omega
      · rw [← hin] at hpass
        exact ⟨true, reached_overshoot hreach (by omega) hpass, by omega⟩

theorem parse_nonzero_stays (hc : m.length ≤ c) {n' N : Nat} (hlt : n < n') (hN : n' ≤ N)
    (hNm : N ≤ m.length)
    (h0 : (parsed realloc type m n c).1 ≠ 0)
    (hres : Resumes m n n' (parsed realloc type m n c).2) :
    (parsed realloc type m n c).1 = (parsed realloc type m N c).1 ∧
      (parsed realloc type m n c).2.published = (parsed realloc type m N c).2.published := by
  rw [parse_init hc (by omega)] at h0 hres ⊢
  rw [parse_init hc hNm]
  by_cases hmax : SHRT_MAX ≤ n
  · rw [Nat.min_eq_right hmax, show min N SHRT_MAX = SHRT_MAX by omega]
    exact ⟨rfl, rfl⟩
  have hn : min n SHRT_MAX = n := by omega
  rw [hn] at h0 hres ⊢
  rw [take_eq_append_slice n (min N SHRT_MAX) (by omega)]
  cases hfeed : feed (byteStep realloc m) (initHttpMessage type, false) (m.take n) with
  | done rc s =>
    rw [feed_append_done hfeed]
    exact ⟨rfl, rfl⟩
  | more s =>
    obtain ⟨r, b⟩ := s
    rw [hfeed] at h0 hres
    obtain ⟨hri, hreach⟩ := reached_of_feed (by omega) hfeed
    dsimp only at hri
    simp only [finish, loopResult] at h0 hres ⊢
    -- the call ran out of buffer: with `n` below both limits only a byte stepped over can do that
    have hic : ¬ (overshoot (r, b)).i < min c SHRT_MAX := by
      intro hlt'
      rw [if_pos hlt'] at h0
      exact h0 rfl
    rw [if_neg hic] at hres ⊢
    cases b with
    | false =>
      simp only [overshoot, Bool.false_eq_true, if_false] at hic
      omega
    | true =>
      simp only [overshoot, if_true, Resumes] at hic hres ⊢
      rcases hres with h1 | h1 | ⟨hpass, h1⟩
      · omega
      · omega
      · have hend : min N SHRT_MAX = n + 1 := by omega
        have hnext := (reached_overshoot hreach (by omega) (by rw [hri]; exact hpass)).2
        dsimp only at hnext
        rw [hend, ← hri, ← take_eq_append_slice _ _ (by omega), hnext]
        dsimp only
        rw [if_neg (by simp only [if_true]; omega)]
        exact ⟨rfl, rfl⟩

theorem parseFragments_reached (hc : m.length ≤ c) (ns : List Nat) (s : Cursor) (N : Nat)
    (hinc : ns.Pairwise (· < ·)) (hlast : ns.getLast? = some N) (hN : N ≤ m.length)
    (hr : Reached realloc m type s)
    (hready : ∀ n, ns.head? = some n →
      s.1.i < min n SHRT_MAX ∨ (s.1.i = min n SHRT_MAX ∧ s.2 = false))
    (hsteady : SteadyCalls realloc m c s.1 ns) :
    (parseFragments realloc m c s.1 ns).1 = (parsed realloc type m N c).1 ∧
      (parseFragments realloc m c s.1 ns).2.published = (parsed realloc type m N c).2.published := by
  induction ns generalizing s with
  | nil => cases hlast
  | cons n ns ih =>
    cases ns with
    | nil =>
      obtain rfl : n = N := by simpa using hlast
      rw [parseFragments, if_pos (.inr rfl), parse_resume hc hN hr (hready _ rfl)]
      exact ⟨rfl, rfl⟩
    | cons n' ns =>
      rw [List.getLast?_cons_cons] at hlast
      have hmem : N ∈ n' :: ns := List.mem_of_getLast? hlast
      have hnN : n < N := rel_of_pairwise_cons hinc hmem
      have hnn' : n < n' := rel_of_pairwise_cons hinc mem_cons_self
      have hn'N : n' ≤ N := by
        rcases List.mem_cons.mp hmem with h | h
        · exact h.ge
        · exact (rel_of_pairwise_cons (List.pairwise_cons.mp hinc).2 h).le
      have hcall : parseHttpMessage realloc s.1 m n c = parsed realloc type m n c :=
        parse_resume hc (by omega) hr (hready _ rfl)
      rw [SteadyCalls, hcall] at hsteady
      rw [parseFragments, hcall]
      by_cases h0 : (parsed realloc type m n c).1 = 0
      · rw [if_neg (by simp [h0])]
        obtain ⟨b, hreach, hlt⟩ := parse_zero_next hc (by omega) hnn' h0 hsteady.1
        exact ih (_, b) (List.pairwise_cons.mp hinc).2 hlast hreach
          (fun k hk => by cases hk; exact .inl hlt) (hsteady.2 h0)
      · rw [if_pos (.inl h0)]
        exact parse_nonzero_stays hc hnn' hn'N hN h0 hsteady.1

/-! ## The pieces and the whole -/

/-- The run of calls on `ns` returns and publishes what one call on the last prefix, `N` bytes long,
does. -/
def FragmentsAgree (realloc : Nat → Bool) (type : HttpType) (m : Bytes) (c : Nat) (ns : List Nat)
    (N : Nat) : Prop :=
  (parseFragments realloc m c (initHttpMessage type) ns).1 =
      (parseHttpMessage realloc (initHttpMessage type) m N c).1 ∧
    (parseFragments realloc m c (initHttpMessage type) ns).2.published =
      (parseHttpMessage realloc (initHttpMessage type) m N c).2.published

/-- In every run of calls on growing prefixes in which no call steps over a byte that matters, the
pieces and the whole agree; every prefix of the run is such a run too. -/
theorem fragmentsAgree_of_steadyCalls (realloc : Nat → Bool) (type : HttpType) (m : Bytes)
    (c N : Nat) (ns : List Nat) (hc : m.length ≤ c) (hinc : ns.Pairwise (· < ·))
    (hlast : ns.getLast? = some N) (hN : N ≤ m.length)
    (hsteady : SteadyCalls realloc m c (initHttpMessage type) ns) :
    FragmentsAgree realloc type m c ns N := by
  apply parseFragments_reached hc ns (initHttpMessage type, false) N hinc hlast hN
  · exact ⟨Nat.zero_le _, rfl⟩
  · intro n _
    change 0 < _ ∨ (0 = _ ∧ _)
    by_cases hz : min n SHRT_MAX = 0
    · exact .inr ⟨hz.symm, rfl⟩
    · exact .inl (by omega)
  · exact hsteady

/-- A request cut between its request line and its headers. -/
theorem fragmentsAgree_get :
    SteadyCalls (fun _ => true) (ascii "GET / HTTP/1.1\r\nHost: a\r\n\r\n") 27
        (initHttpMessage .kHttpRequest) [16, 27] ∧
      FragmentsAgree (fun _ => true) .kHttpRequest
        (ascii "GET / HTTP/1.1\r\nHost: a\r\n\r\n") 27 [16, 27] 27 := by
  have hsteady : SteadyCalls (fun _ => true) (ascii "GET / HTTP/1.1\r\nHost: a\r\n\r\n") 27
      (initHttpMessage .kHttpRequest) [16, 27] :=
    ⟨.inl (by decide +kernel), fun _ => trivial⟩
  exact ⟨hsteady, fragmentsAgree_of_steadyCalls _ _ _ 27 27 [16, 27] (by decide) (by decide) rfl
    (by decide) hsteady⟩

/-- Cut after `GE`, a request loses the `T`: the method loop has already moved on to the space. -/
theorem not_fragmentsAgree_get :
    ¬ FragmentsAgree (fun _ => true) .kHttpRequest (ascii "GET / HTTP/1.1\r\n\r\n") 18 [2, 18] 18 := by
  intro h
  have hmethod := congrArg Published.method h.2
  revert hmethod
  decide +kernel

end CosmoRuby.Http
