import CosmoRuby.Http.Grammar
import CosmoRuby.Http.Unchunk

/-!
# Chunked bodies

A chunked body, with every choice its encoder has, is decoded to its payloads however it arrives.  The
one thing `Unchunk` refuses is a chunk of 2^40 bytes or more.
-/

namespace CosmoRuby.Http

open Lib List

/-! ## Encoded bodies -/

def isHexDigit (c : UInt8) : Bool := kHexToInt c != -1

def hexFrom (m : Int) (ds : Bytes) : Int := ds.foldl (fun m d => m * 16 + kHexToInt d) m

def IsExtension (ext : Bytes) : Prop :=
  AllBytes isLineByte ext ∧ ∀ c, ext.head? = some c → isHexDigit c = false

structure SizeLine where
  digits : Bytes
  ext : Bytes
  eol : Bytes

def SizeLine.bytes (l : SizeLine) : Bytes := l.digits ++ l.ext ++ l.eol

structure SizeLine.Wf (l : SizeLine) (size : Nat) : Prop where
  ne_nil : l.digits ≠ []
  digits : AllBytes isHexDigit l.digits
  value : hexFrom 0 l.digits = size
  ext : IsExtension l.ext
  eol : IsEol l.eol

structure Chunk where
  line : SizeLine
  payload : Bytes
  eol : Bytes

def Chunk.bytes (c : Chunk) : Bytes := c.line.bytes ++ c.payload ++ c.eol

structure Chunk.Wf (c : Chunk) : Prop where
  line : c.line.Wf c.payload.length
  payload : c.payload ≠ []
  eol : IsEol c.eol

structure Trailer where
  text : Bytes
  eol : Bytes

def Trailer.bytes (t : Trailer) : Bytes := t.text ++ t.eol

structure Trailer.Wf (t : Trailer) : Prop where
  ne_nil : t.text ≠ []
  text : AllBytes isLineByte t.text
  eol : IsEol t.eol

structure ChunkedBody where
  chunks : List Chunk
  last : SizeLine
  trailers : List Trailer
  eol : Bytes

def ChunkedBody.bytes (b : ChunkedBody) : Bytes :=
  (b.chunks.map Chunk.bytes).flatten ++ b.last.bytes ++ (b.trailers.map Trailer.bytes).flatten ++
    b.eol

def ChunkedBody.payload (b : ChunkedBody) : Bytes := (b.chunks.map Chunk.payload).flatten

structure ChunkedBody.Wf (b : ChunkedBody) : Prop where
  chunks : ∀ c ∈ b.chunks, c.Wf
  last : b.last.Wf 0
  trailers : ∀ t ∈ b.trailers, t.Wf
  eol : IsEol b.eol

/-! ## Reading the pieces -/

def At (s : Decoding) (t : ChunkState) (m : Int) (out : Bytes) : Prop :=
  s.1.t = t ∧ s.1.m = m ∧ s.2 = out ∧ s.1.j = out.length

def Reads (t : ChunkState) (m : Int) (out w : Bytes) (t' : ChunkState) (m' : Int) (out' : Bytes) :
    Prop :=
  ∀ s, At s t m out → ∃ s', feed decodeByte s w = .more s' ∧ At s' t' m' out' ∧
    s'.1.i = s.1.i + w.length

variable {t t1 t2 : ChunkState} {m m1 m2 : Int} {out out1 out2 w w1 w2 : Bytes} {c : UInt8}

theorem Reads.refl : Reads t m out [] t m out := fun s hs => ⟨s, rfl, hs, rfl⟩

theorem Reads.trans (h1 : Reads t m out w1 t1 m1 out1) (h2 : Reads t1 m1 out1 w2 t2 m2 out2) :
    Reads t m out (w1 ++ w2) t2 m2 out2 := by
  intro s hs
  obtain ⟨s1, hf1, hs1, hi1⟩ := h1 s hs
  obtain ⟨s2, hf2, hs2, hi2⟩ := h2 s1 hs1
  refine ⟨s2, by rw [feed_append_more hf1, hf2], hs2, ?_⟩
  rw [hi2, hi1, length_append, Nat.add_assoc]

theorem Reads.cons (h1 : Reads t m out [c] t1 m1 out1) (h2 : Reads t1 m1 out1 w t2 m2 out2) :
    Reads t m out (c :: w) t2 m2 out2 :=
  h1.trans h2

theorem reads_byte (ht : t ≠ .chunk)
    (harm : ∀ i j, lineArm ⟨t, i, j, m⟩ c = .brk ⟨t1, i, j, m1⟩) : Reads t m out [c] t1 m1 out := by
  rintro ⟨u, out'⟩ ⟨ht', hm', hout, hj⟩
  dsimp only at ht' hm' hout hj
  have hu : lineArm { u with i := u.i + 1 } c = .brk ⟨t1, u.i + 1, u.j, m1⟩ := by
    rw [ht', hm']
    exact harm _ _
  have hstep : decodeByte (u, out') c = .more (⟨t1, u.i + 1, u.j, m1⟩, out') := by
    rw [decodeByte_line _ (by rw [ht']; exact ht), hu]
  exact ⟨(⟨t1, u.i + 1, u.j, m1⟩, out'), by rw [feed_cons_more hstep, feed_nil],
    ⟨rfl, rfl, hout, hj⟩, rfl⟩

variable {ds e : Bytes}

theorem le_hexFrom (hm : 0 ≤ m) (hds : AllBytes isHexDigit ds) : m ≤ hexFrom m ds := by
  induction ds generalizing m with
  | nil => exact le_rfl
  | cons d ds ih =>
    have hd : kHexToInt d ≠ -1 := by simpa [isHexDigit] using hds d mem_cons_self
    have hbound := kHexToInt_bounds d
    have hrec := ih (m := m * 16 + kHexToInt d) (by omega) fun x hx => hds x (mem_cons_of_mem d hx)
    change m ≤ hexFrom (m * 16 + kHexToInt d) ds
    omega

theorem reads_digits (hm : 0 ≤ m) (hds : AllBytes isHexDigit ds)
    (hlt : hexFrom m ds < 0x10000000000) : Reads .chunkSize m out ds .chunkSize (hexFrom m ds) out := by
  induction ds generalizing m with
  | nil => exact .refl
  | cons d ds ih =>
    have hd : kHexToInt d ≠ -1 := by simpa [isHexDigit] using hds d mem_cons_self
    have hbound := kHexToInt_bounds d
    have hds' : AllBytes isHexDigit ds := fun x hx => hds x (mem_cons_of_mem d hx)
    have hle := le_hexFrom (m := m * 16 + kHexToInt d) (by omega) hds'
    have hrest : Reads .chunkSize (m * 16 + kHexToInt d) out ds .chunkSize
        (hexFrom (m * 16 + kHexToInt d) ds) out := ih (by omega) hds' hlt
    change hexFrom (m * 16 + kHexToInt d) ds < _ at hlt
    refine (reads_byte (by decide) fun i j => ?_).cons hrest
    simp only [lineArm, chunkSizeArm]
    rw [if_pos hd, if_neg (by omega)]

theorem reads_size (hne : ds ≠ []) (hds : AllBytes isHexDigit ds)
    (hlt : hexFrom 0 ds < 0x10000000000) :
    Reads .chunkStart m out ds .chunkSize (hexFrom 0 ds) out := by
  cases ds with
  | nil => exact absurd rfl hne
  | cons d ds =>
    have hd : kHexToInt d ≠ -1 := by simpa [isHexDigit] using hds d mem_cons_self
    have hbound := kHexToInt_bounds d
    have hfirst : hexFrom 0 (d :: ds) = hexFrom (kHexToInt d) ds := by simp [hexFrom]
    rw [hfirst] at hlt ⊢
    refine (reads_byte (by decide) fun i j => ?_).cons
      (reads_digits (by omega) (fun x hx => hds x (mem_cons_of_mem d hx)) hlt)
    simp only [lineArm]
    rw [if_neg hd]

theorem isLineByte_iff (c : UInt8) : isLineByte c = true ↔ c ≠ chCr ∧ c ≠ chLf := by
  rw [isLineByte, Bool.not_eq_true', ← Bool.not_eq_true, isEolByte_iff, not_or]

def afterSize (m : Int) : ChunkState := if m ≠ 0 then .chunk else .trailerStart

theorem reads_sizeEol (ht : t = .chunkSize ∨ t = .chunkExt) (he : IsEol e) :
    Reads t m out e (afterSize m) m out := by
  have hlf : Reads .chunkLf1 m out [chLf] (afterSize m) m out :=
    reads_byte (by decide) fun _ _ => rfl
  rcases he with rfl | rfl <;> rcases ht with rfl | rfl
  · exact reads_byte (by decide) fun _ _ => rfl
  · exact reads_byte (by decide) fun _ _ => rfl
  · exact (reads_byte (by decide) fun _ _ => rfl).cons hlf
  · exact (reads_byte (by decide) fun _ _ => rfl).cons hlf

theorem reads_text (ht : t ≠ .chunk)
    (harm : ∀ c i j, isLineByte c = true → lineArm ⟨t, i, j, m⟩ c = .brk ⟨t, i, j, m⟩)
    (hw : AllBytes isLineByte w) : Reads t m out w t m out := by
  induction w with
  | nil => exact .refl
  | cons c w ih =>
    exact (reads_byte ht fun i j => harm c i j (hw c mem_cons_self)).cons
      (ih fun x hx => hw x (mem_cons_of_mem c hx))

theorem reads_ext (he : AllBytes isLineByte e) : Reads .chunkExt m out e .chunkExt m out := by
  refine reads_text (by decide) (fun c i j hc => ?_) he
  obtain ⟨hcr, hlf⟩ := (isLineByte_iff c).mp hc
  simp only [lineArm, chunkExtArm]
  rw [if_neg hcr, if_pos hlf]

theorem reads_sizeLine {l : SizeLine} {size : Nat} (hl : l.Wf size) (hsize : size < 0x10000000000) :
    Reads .chunkStart m out l.bytes (afterSize size) size out := by
  have hdigits : Reads .chunkStart m out l.digits .chunkSize size out := by
    have h : Reads .chunkStart m out l.digits .chunkSize (hexFrom 0 l.digits) out :=
      reads_size hl.ne_nil hl.digits (by rw [hl.value]; omega)
    rwa [hl.value] at h
  obtain ⟨hext, hfirst⟩ := hl.ext
  cases he : l.ext with
  | nil =>
    rw [SizeLine.bytes, he, append_nil]
    exact hdigits.trans (reads_sizeEol (.inl rfl) hl.eol)
  | cons c e =>
    rw [he] at hext hfirst
    obtain ⟨hcr, hlf⟩ := (isLineByte_iff c).mp (hext c mem_cons_self)
    have hhex : ¬(kHexToInt c ≠ -1) := by simpa [isHexDigit] using hfirst c rfl
    have hc : Reads .chunkSize size out [c] .chunkExt size out := by
      refine reads_byte (by decide) fun i j => ?_
      simp only [lineArm, chunkSizeArm, chunkExtArm]
      rw [if_neg hhex, if_neg hcr, if_pos hlf]
    have hrest : Reads .chunkExt size out e .chunkExt size out :=
      reads_ext fun x hx => hext x (mem_cons_of_mem c hx)
    rw [SizeLine.bytes, he]
    exact (hdigits.trans (hc.cons hrest)).trans (reads_sizeEol (.inr rfl) hl.eol)

theorem reads_payload (hne : w ≠ []) : Reads .chunk w.length out w .chunkCr2 0 (out ++ w) := by
  rintro ⟨u, out'⟩ ⟨ht, hm, hout, hj⟩
  dsimp only at ht hm hout hj
  refine ⟨_, feed_chunk _ ht hne hm.ge, ⟨?_, ?_, ?_, ?_⟩, rfl⟩
  · dsimp only
    rw [hm, sub_self, if_pos rfl]
  · dsimp only
    rw [hm, sub_self]
  · rw [hout]
  · dsimp only
    rw [hj, length_append]

theorem reads_chunkEol (he : IsEol e) : Reads .chunkCr2 m out e .chunkStart m out := by
  rcases he with rfl | rfl
  · exact reads_byte (by decide) fun _ _ => rfl
  · exact (reads_byte (by decide) fun _ _ => rfl).cons
      (reads_byte (t := .chunkLf2) (by decide) fun _ _ => rfl)

theorem reads_chunk {k : Chunk} (hk : k.Wf) (hsmall : k.payload.length < 0x10000000000) :
    Reads .chunkStart m out k.bytes .chunkStart 0 (out ++ k.payload) := by
  have hline : Reads .chunkStart m out _ _ _ out := reads_sizeLine hk.line hsmall
  have hpos : 0 < k.payload.length := length_pos_of_ne_nil hk.payload
  rw [afterSize, if_pos (by omega)] at hline
  exact (hline.trans (reads_payload hk.payload)).trans (reads_chunkEol hk.eol)

theorem reads_chunks {ks : List Chunk} (hks : ∀ k ∈ ks, k.Wf)
    (hsmall : ∀ k ∈ ks, k.payload.length < 0x10000000000) :
    Reads .chunkStart 0 out (ks.map Chunk.bytes).flatten .chunkStart 0
      (out ++ (ks.map Chunk.payload).flatten) := by
  induction ks generalizing out with
  | nil =>
    simp only [map_nil, flatten_nil, append_nil]
    exact .refl
  | cons k ks ih =>
    have hfirst : Reads .chunkStart 0 out k.bytes .chunkStart 0 (out ++ k.payload) :=
      reads_chunk (hks k mem_cons_self) (hsmall k mem_cons_self)
    have hrest : Reads .chunkStart 0 (out ++ k.payload) _ .chunkStart 0 _ :=
      ih (fun x hx => hks x (mem_cons_of_mem k hx)) fun x hx => hsmall x (mem_cons_of_mem k hx)
    rw [append_assoc] at hrest
    exact hfirst.trans hrest

theorem reads_trailerText (hw : AllBytes isLineByte w) : Reads .trailer m out w .trailer m out := by
  refine reads_text (by decide) (fun c i j hc => ?_) hw
  obtain ⟨hcr, hlf⟩ := (isLineByte_iff c).mp hc
  simp only [lineArm, trailerArm]
  rw [if_neg hcr, if_pos hlf]

theorem reads_trailer {l : Trailer} (hl : l.Wf) :
    Reads .trailerStart m out l.bytes .trailerStart m out := by
  have heol : Reads .trailer m out l.eol .trailerStart m out := by
    rcases hl.eol with he | he <;> rw [he]
    · exact reads_byte (by decide) fun _ _ => rfl
    · exact (reads_byte (by decide) fun _ _ => rfl).cons
        (reads_byte (t := .trailerLf1) (by decide) fun _ _ => rfl)
  obtain ⟨c, w, hcw⟩ := exists_cons_of_ne_nil hl.ne_nil
  have htext := hl.text
  rw [hcw] at htext
  obtain ⟨hcr, hlf⟩ := (isLineByte_iff c).mp (htext c mem_cons_self)
  have hc : Reads .trailerStart m out [c] .trailer m out := by
    refine reads_byte (by decide) fun i j => ?_
    simp only [lineArm, trailerArm]
    rw [if_neg hcr, if_neg hlf, if_neg hcr, if_pos hlf]
  rw [Trailer.bytes, hcw]
  exact (hc.cons (reads_trailerText fun x hx => htext x (mem_cons_of_mem c hx))).trans heol

theorem reads_trailers {ls : List Trailer} (hls : ∀ l ∈ ls, l.Wf) :
    Reads .trailerStart m out (ls.map Trailer.bytes).flatten .trailerStart m out := by
  induction ls with
  | nil => exact .refl
  | cons l ls ih =>
    exact (reads_trailer (hls l mem_cons_self)).trans
      (ih fun x hx => hls x (mem_cons_of_mem l hx))

variable {s s' : Decoding}

theorem feed_lastEol (hs : At s .trailerStart m out) (he : IsEol e) :
    ∃ s', feed decodeByte s e = .done true s' ∧ s'.2 = out ∧ s'.1.j = out.length ∧
      s'.1.i = s.1.i + e.length := by
  obtain ⟨⟨t, i, j, m'⟩, out'⟩ := s
  obtain ⟨ht, -, hout, hj⟩ := hs
  dsimp only at ht hout hj
  subst ht
  rcases he with rfl | rfl
  · exact ⟨(⟨.trailerStart, i + 1, j, m'⟩, out'), rfl, hout, hj, rfl⟩
  · exact ⟨(⟨.trailerLf2, i + 2, j, m'⟩, out'), rfl, hout, hj, rfl⟩

theorem feed_body {b : ChunkedBody} (hb : b.Wf)
    (hsmall : ∀ k ∈ b.chunks, k.payload.length < 0x10000000000) :
    ∃ s, feed decodeByte (initUnchunker, []) b.bytes = .done true s ∧ s.2 = b.payload ∧
      s.1.j = b.payload.length ∧ s.1.i = b.bytes.length := by
  have hchunks : Reads .chunkStart 0 [] _ .chunkStart 0 _ := reads_chunks hb.chunks hsmall
  rw [nil_append] at hchunks
  have hlast : Reads .chunkStart 0 b.payload _ _ _ b.payload := reads_sizeLine hb.last (by decide)
  have htrailers : Reads .trailerStart (0 : Nat) b.payload _ _ _ b.payload :=
    reads_trailers hb.trailers
  obtain ⟨s, hfeed, hs, hi⟩ := (hchunks.trans hlast).trans htrailers (initUnchunker, [])
    ⟨rfl, rfl, rfl, rfl⟩
  obtain ⟨s', hfeed', hout, hj, hi'⟩ := feed_lastEol hs hb.eol
  refine ⟨s', ?_, hout, hj, ?_⟩
  · rw [ChunkedBody.bytes, feed_append_more hfeed, hfeed']
  · simp only [hi', hi, ChunkedBody.bytes, length_append, initUnchunker]
    omega

/-! ## Any arrival of the bytes -/

/-- One call after each arrival, up to the first result that is not 0.  What arrives is appended to
the buffer the calls before have worked on. -/
def unchunkCalls (u : HttpUnchunker) (p : Bytes) : List Bytes → Unchunked
  | [] => ⟨0, none, u, p⟩
  | d :: ds =>
    let r := unchunk u (p ++ d) (p ++ d).length
    if r.rc ≠ 0 then r else unchunkCalls r.u r.p ds

def CallsMatch (r : Unchunked) : Fed Decoding Bool → Prop
  | .more s =>
    r.rc = 0 ∧ r.u = s.1 ∧ s.1.j ≤ s.1.i ∧ r.p.length = s.1.i ∧ r.p.take s.1.j = s.2
  | .done true s => r.rc = s.1.i ∧ r.l = some s.1.j ∧ r.u = s.1 ∧ r.p.take s.1.j = s.2
  | .done false _ => r.rc = -1

theorem decodeByte_i (s : Decoding) (c : UInt8) : (decodeByte s c).state.1.i = s.1.i + 1 := by
  obtain ⟨u, out⟩ := s
  by_cases ht : u.t = .chunk
  · rw [decodeByte_chunk ht]
    rfl
  · have hoff := (lineArm_offsets { u with i := u.i + 1 } c).1
    rw [decodeByte_line _ ht]
    cases harm : lineArm { u with i := u.i + 1 } c with
    | brk u' | bad u' | finished u' => rwa [harm] at hoff

theorem decodeByte_counts (w : Bytes) (x : Decoding) (c : UInt8) (x' : Decoding)
    (hx : x.1.i = s.1.i + w.length) (hstep : decodeByte x c = .more x') :
    x'.1.i = s.1.i + (w ++ [c]).length := by
  have hi := decodeByte_i x c
  rw [hstep, hx] at hi
  rw [length_append]
  exact hi

theorem feed_decode_i (h : feed decodeByte s w = .more s') : s'.1.i = s.1.i + w.length :=
  feed_more_invariant (fun w x => x.1.i = s.1.i + w.length) (w := []) rfl decodeByte_counts h

theorem feed_done_i {b : Bool} (h : feed decodeByte s w = .done b s') :
    s.1.i < s'.1.i ∧ s'.1.i ≤ s.1.i + w.length := by
  obtain ⟨ys, x, zs, s1, hw, hinv, hlast⟩ :=
    feed_done_invariant (fun w x => x.1.i = s.1.i + w.length) (w := []) rfl decodeByte_counts h
  have hi := decodeByte_i s1 x
  rw [hlast, hinv, nil_append] at hi
  dsimp only [Fed.state] at hi
  rw [hi, hw, length_append, length_cons]
  omega

theorem feed_wf (hwf : s.1.Wf) (h : feed decodeByte s w = .more s') : s'.1.Wf :=
  feed_more_invariant (fun _ x => x.1.Wf) (w := []) hwf (fun _ _ _ _ hx hstep => decodeByte_wf hx hstep)
    h

theorem unchunkCalls_match (ds : List Bytes) (u : HttpUnchunker) (p : Bytes) (hji : u.j ≤ u.i)
    (hp : p.length = u.i) (hwf : u.Wf) :
    CallsMatch (unchunkCalls u p ds) (feed decodeByte (u, p.take u.j) ds.flatten) := by
  induction ds generalizing u p with
  | nil => exact ⟨rfl, rfl, hji, hp, rfl⟩
  | cons d ds ih =>
    have hlen : (p ++ d).length = u.i + d.length := by rw [length_append, hp]
    have hcall := unchunkLoop_eq ((p ++ d).length - u.i) u (p ++ d) rfl hji (by omega) hwf le_rfl
    have hbounds := unchunkLoop_bounds ((p ++ d).length - u.i) u (p ++ d) hji
      (show u.i ≤ (p ++ d).length by omega)
    rw [take_append_of_le_length (by omega), ← hp, drop_left, hp] at hcall
    rw [unchunkCalls, flatten_cons]
    change Matches _ (unchunk u (p ++ d) (p ++ d).length) _ at hcall
    cases hfeed : feed decodeByte (u, p.take u.j) d with
    | more s =>
      rw [hfeed] at hcall
      obtain ⟨hrc, -, hu, hplen, htake⟩ := hcall
      have hi := feed_decode_i hfeed
      rw [feed_append_more hfeed]
      rw [if_neg (by rw [hrc]; decide), hu]
      have hs : s.1.j ≤ s.1.i := by rw [← hu]; exact hbounds.1
      have hrec := ih s.1 (unchunk u (p ++ d) (p ++ d).length).p hs (by rw [hplen, hlen, hi])
        (feed_wf hwf hfeed)
      rwa [htake] at hrec
    | done b s =>
      rw [hfeed] at hcall
      have hi := feed_done_i hfeed
      rw [feed_append_done hfeed]
      cases b with
      | true =>
        obtain ⟨hrc, hl, hu, -, htake⟩ := hcall
        rw [if_pos (by rw [hrc]; dsimp only at hi; omega)]
        exact ⟨hrc, hl, hu, htake⟩
      | false =>
        obtain ⟨hrc, -⟩ := hcall
        rw [if_pos (by rw [hrc]; decide)]
        exact hrc

/-- However bytes are cut into calls, well formed or not, the result is that of one call with all of them. -/
theorem unchunkCalls_flatten (ds : List Bytes) :
    let r := unchunkCalls initUnchunker [] ds
    let one := unchunk initUnchunker ds.flatten ds.flatten.length
    r.rc = one.rc ∧ (0 < r.rc → r.l = one.l) ∧
      (0 ≤ r.rc → r.u = one.u ∧ r.p.take r.u.j = one.p.take one.u.j) := by
  intro r one
  have hcalls : CallsMatch r _ := unchunkCalls_match ds initUnchunker [] le_rfl rfl wf_init
  have hone : Matches _ one (feed decodeByte (initUnchunker, []) ds.flatten) :=
    unchunkLoop_eq _ initUnchunker ds.flatten rfl le_rfl (Nat.zero_le _) wf_init le_rfl
  rw [take_nil] at hcalls
  generalize feed decodeByte (initUnchunker, []) ds.flatten = fed at hcalls hone
  cases fed with
  | more s =>
    obtain ⟨hrc, hu, -, -, htake⟩ := hcalls
    obtain ⟨hrc', -, hu', -, htake'⟩ := hone
    refine ⟨hrc.trans hrc'.symm, fun hpos => absurd hrc hpos.ne', fun _ => ⟨hu.trans hu'.symm, ?_⟩⟩
    rw [hu, hu', htake, htake']
  | done b s =>
    cases b with
    | true =>
      obtain ⟨hrc, hl, hu, htake⟩ := hcalls
      obtain ⟨hrc', hl', hu', -, htake'⟩ := hone
      refine ⟨hrc.trans hrc'.symm, fun _ => hl.trans hl'.symm, fun _ => ⟨hu.trans hu'.symm, ?_⟩⟩
      rw [hu, hu', htake, htake']
    | false =>
      have hrc : r.rc = -1 := hcalls
      exact ⟨hrc.trans hone.1.symm, fun hpos => by omega, fun hpos => by omega⟩

/-- However the bytes of the body and `rest` arrive: the calls return 0 until the body is there and
its length then, they report and leave its payload, and within every call `u->j <= u->i <= n`. -/
def DecodesChunked (b : ChunkedBody) (rest : Bytes) : Prop :=
  ∀ ds : List Bytes, ds.flatten <+: b.bytes ++ rest →
    let r := unchunkCalls initUnchunker [] ds
    (ds.flatten.length < b.bytes.length → r.rc = 0) ∧
    (b.bytes.length ≤ ds.flatten.length →
      r.rc = b.bytes.length ∧ r.l = some (b.chunks.map (·.payload.length)).sum ∧
        r.p.take b.payload.length = b.payload) ∧
    (r.rc = 0 → ∀ d passes,
      let s := unchunkLoop (r.p ++ d).length passes r.u (r.p ++ d)
      s.u.j ≤ s.u.i ∧ s.u.i ≤ (r.p ++ d).length)

theorem payload_length (b : ChunkedBody) :
    b.payload.length = (b.chunks.map (·.payload.length)).sum := by
  rw [ChunkedBody.payload, length_flatten, map_map]
  rfl

/-- Every body whose chunks are shorter than 2^40 bytes is decoded, however it arrives. -/
theorem decodesChunked_of_small (b : ChunkedBody) (rest : Bytes) (hb : b.Wf)
    (hsmall : ∀ c ∈ b.chunks, c.payload.length < 2 ^ 40) : DecodesChunked b rest := by
  obtain ⟨s, hbody, hout, hj, hi⟩ := feed_body hb hsmall
  intro ds hds r
  have hcalls := unchunkCalls_match ds initUnchunker [] le_rfl rfl wf_init
  rw [take_nil] at hcalls
  refine ⟨fun hshort => ?_, fun hlong => ?_, fun hrc d passes => ?_⟩
  · -- a decoder that stopped early would have stopped there on the whole body
    obtain ⟨tail, htail⟩ : ds.flatten <+: b.bytes :=
      prefix_of_prefix_length_le hds (prefix_append _ _) hshort.le
    cases hfeed : feed decodeByte (initUnchunker, []) ds.flatten with
    | more s1 =>
      rw [hfeed] at hcalls
      exact hcalls.1
    | done x s1 =>
      have hwhole := feed_append_done hfeed tail
      rw [htail, hbody] at hwhole
      cases hwhole
      have hbound := (feed_done_i hfeed).2
      simp only [initUnchunker] at hbound
      omega
  · obtain ⟨tail, htail⟩ : b.bytes <+: ds.flatten :=
      prefix_of_prefix_length_le (prefix_append _ _) hds hlong
    rw [← htail, feed_append_done hbody] at hcalls
    obtain ⟨hrc, hl, -, htake⟩ := hcalls
    rw [hi] at hrc
    rw [hj, payload_length] at hl
    rw [hj, hout] at htake
    exact ⟨hrc, hl, htake⟩
  · cases hfeed : feed decodeByte (initUnchunker, []) ds.flatten with
    | more s1 =>
      rw [hfeed] at hcalls
      obtain ⟨-, hu, hji, hlen, -⟩ := hcalls
      refine unchunkLoop_bounds passes r.u (r.p ++ d) ?_ ?_
      · rw [hu]
        exact hji
      · rw [hu, length_append, hlen]
        omega
    | done x s1 =>
      rw [hfeed] at hcalls
      have hpos := (feed_done_i hfeed).1
      cases x with
      | true =>
        have h := hcalls.1.symm.trans hrc
        omega
      | false => exact absurd (hcalls.symm.trans hrc) (by decide)

/-! ## Two bodies -/

def zeroLine : SizeLine := ⟨ascii "0", [], [chLf]⟩

theorem zeroLine_wf : zeroLine.Wf 0 :=
  ⟨by decide, by decide +kernel, by decide +kernel, ⟨.nil, fun _ hc => nomatch hc⟩, .inl rfl⟩

/-- `Hello`, under a size line with a leading zero and an extension, and a trailer line. -/
def helloBody : ChunkedBody where
  chunks := [⟨⟨ascii "05", ascii ";x=y", [chCr, chLf]⟩, ascii "Hello", [chLf]⟩]
  last := zeroLine
  trailers := [⟨ascii "Expires: 0", [chCr, chLf]⟩]
  eol := [chCr, chLf]

theorem helloBody_wf : helloBody.Wf where
  chunks := by
    intro c hc
    rw [List.mem_singleton.mp hc]
    exact ⟨⟨by decide, by decide +kernel, by decide +kernel, ⟨by decide +kernel, by decide +kernel⟩,
      .inr rfl⟩, by decide, .inl rfl⟩
  last := zeroLine_wf
  trailers := by
    intro t ht
    rw [List.mem_singleton.mp ht]
    exact ⟨by decide, by decide +kernel, .inr rfl⟩
  eol := .inr rfl

theorem decodesChunked_helloBody : helloBody.Wf ∧ DecodesChunked helloBody (ascii "GET") :=
  ⟨helloBody_wf, decodesChunked_of_small helloBody (ascii "GET") helloBody_wf (by decide +kernel)⟩

def hugeLine : SizeLine := ⟨ascii "10000000000", [], [chLf]⟩

theorem hugeLine_wf : hugeLine.Wf (2 ^ 40) :=
  ⟨by decide, by decide +kernel, by decide +kernel, ⟨.nil, fun _ hc => nomatch hc⟩, .inl rfl⟩

def hugeBody (payload : Bytes) : ChunkedBody := ⟨[⟨hugeLine, payload, [chLf]⟩], zeroLine, [], [chLf]⟩

theorem hugeBody_wf {payload : Bytes} (hlen : payload.length = 2 ^ 40) : (hugeBody payload).Wf where
  chunks := by
    intro c hc
    rw [List.mem_singleton.mp hc]
    refine ⟨?_, ?_, .inl rfl⟩
    · dsimp only
      rw [hlen]
      exact hugeLine_wf
    · exact ne_nil_of_length_pos (by dsimp only; omega)
  last := zeroLine_wf
  trailers := fun t ht => nomatch ht
  eol := .inl rfl

/-- `Unchunk` refuses the size of such a chunk as soon as it has read its digits. -/
theorem not_decodesChunked_huge : ∃ b : ChunkedBody, b.Wf ∧ ¬ DecodesChunked b [] := by
  obtain ⟨payload, hlen⟩ : ∃ payload : Bytes, payload.length = 2 ^ 40 :=
    ⟨List.replicate (2 ^ 40) 0, length_replicate⟩
  refine ⟨hugeBody payload, hugeBody_wf hlen, fun h => ?_⟩
  have hbytes : (hugeBody payload).bytes =
      ascii "10000000000" ++ ([chLf] ++ payload ++ [chLf] ++ ascii "0\n\n") := by
    simp [ChunkedBody.bytes, hugeBody, Chunk.bytes, SizeLine.bytes, hugeLine, zeroLine, ascii]
  have hfirst := h [ascii "10000000000"] (by
    rw [hbytes, flatten_singleton, append_nil]
    exact prefix_append _ _)
  have hrc := hfirst.1 (by
    rw [hbytes, flatten_singleton, length_append]
    simp)
  exact absurd hrc (by decide +kernel)

end CosmoRuby.Http
