import CosmoRuby.Mmap.Mremap

/-!
# The emulated `RLIMIT_AS`

Where the kernel does not limit the address space, `mmap` and a growing `mremap` compare what they would
come to with the limit. They count the entries of the table, each as one page.
-/

namespace CosmoRuby.Mmap

open CosmoRuby.Lib

/-- The calls that ask for memory. A growing `mremap` is the one of `__mremap_polyfill`. -/
inductive Growth where
  | mmap (res size prot : Nat) (flags : Flags) (off : Int)
  | mremap (addr oldSize newSize prot : Nat) (flags : Flags)
deriving Repr

namespace Growth

/-- What `__mmap_impl` is asked for. -/
def call (ps : Nat) : Growth → Call
  | .mmap res size prot flags off => .mmap res size prot flags off
  | .mremap addr oldSize newSize prot flags =>
    .mmap (addr + roundUp ps oldSize) (roundUp ps newSize - roundUp ps oldSize) prot
      { flags with anonymous := true, fixed := false, noreplace := true } 0

def bytes (ps : Nat) : Growth → Nat
  | .mmap _ size .. => size
  | .mremap _ oldSize newSize .. => roundUp ps newSize - roundUp ps oldSize

/-- The checks of the sizes; an `mremap` that does not grow is not limited. -/
def Checked (ps : Nat) : Growth → Prop
  | .mmap _ size .. => size ≠ 0 ∧ size ≤ maxSize
  | .mremap _ oldSize newSize .. =>
    oldSize ≠ 0 ∧ newSize ≤ maxSize ∧ roundUp ps oldSize < roundUp ps newSize

/-- What is compared with the limit, a `size_t`. -/
def total (ps : Nat) (t : Maps) : Growth → Nat
  | .mmap _ size .. => (t.count * ps + size) % 2 ^ 64
  | .mremap _ oldSize newSize .. =>
    (t.count * ps + (2 ^ 64 - roundUp ps oldSize % 2 ^ 64) + roundUp ps newSize) % 2 ^ 64

/-- The table when the new entry is inserted: the pages outside of the new range. -/
def kept (ps : Nat) (t : Maps) : Growth → Maps
  | .mmap res size _ flags _ => if fixedMode flags then muntrack ps res size t else t
  | .mremap .. => t

end Growth

/-- The table and the limit. -/
structure Limited where
  maps : Maps
  limit : Nat
deriving Repr

inductive LimitCall where
  | setrlimit (limit : Nat)
  | grow (g : Growth)
  | munmap (addr size : Nat)
deriving Repr

/-- One call that nothing but the limit refuses. -/
def LimitCall.step (ps : Nat) (s : Limited) : LimitCall → Option Limited
  | .setrlimit limit => some { s with limit }
  | .grow g =>
    if g.total ps s.maps ≤ s.limit then some { s with maps := (g.call ps).track ps s.maps } else none
  | .munmap addr size => some { s with maps := muntrack ps addr size s.maps }

def limitRun (ps : Nat) (s : Limited) (calls : List LimitCall) : Option Limited :=
  calls.foldlM (LimitCall.step ps) s

/-- Whatever limit is set after the calls, a request that it lets through leaves no more pages than that. -/
def Enforced (ps : Nat) (start : Limited) (calls : List LimitCall) (g : Growth) : Prop :=
  ∀ limit s', limitRun ps start (calls ++ [.setrlimit limit, .grow g]) = some s' →
    s'.maps.pages * ps ≤ s'.limit

/-- The table has fewer pages besides the new ones than it has entries, or as many and the new ones are
whole. -/
def Growth.Counted (ps : Nat) (t : Maps) (g : Growth) : Prop :=
  t.count * ps + g.bytes ps < 2 ^ 64 ∧
    ((g.kept ps t).pages < t.count ∨ (g.kept ps t).pages = t.count ∧ ps ∣ g.bytes ps)

variable {ps : Nat} {t : Maps} {g : Growth} {s : Limited}

theorem Growth.total_eq (hg : g.Checked ps) : g.total ps t = (t.count * ps + g.bytes ps) % 2 ^ 64 := by
  cases g with
  | mmap => rfl
  | mremap addr oldSize newSize prot flags =>
    have hlt := hg.2.2
    dsimp only [total, bytes]
    omega

theorem Growth.bytes_lt (hps : 0 < ps) (hg : g.Checked ps) : g.bytes ps < 2 ^ 64 := by
  refine lt_of_le_of_lt ?_ (show maxSize < 2 ^ 64 by decide)
  cases g with
  | mmap => exact hg.2
  | mremap addr oldSize newSize prot flags =>
    obtain ⟨hold, hmax, -⟩ := hg
    have hpage : ps ≤ roundUp ps oldSize :=
      Nat.le_of_dvd ((Nat.pos_of_ne_zero hold).trans_le (le_roundUp hps _)) (dvd_roundUp ps _)
    have hnew := roundUp_lt hps newSize
    dsimp only [bytes]
    omega

theorem Growth.pages_track (hps : 0 < ps) :
    ((g.call ps).track ps t).pages * ps = (g.kept ps t).pages * ps + roundUp ps (g.bytes ps) := by
  rw [← pageCount_mul hps, ← Nat.add_mul]
  cases g <;> rfl

/-- After any calls, whatever limit is then set, a request leaves no more pages than the limit exactly
if it is `Counted`. -/
theorem limit_enforced_iff {calls : List LimitCall} {start : Limited} (hps : 0 < ps)
    (hrun : limitRun ps start calls = some s) (hg : g.Checked ps) (hcount : s.maps.count * ps < 2 ^ 64) :
    Enforced ps start calls g ↔ g.Counted ps s.maps := by
  -- the least limit that lets the request through decides
  have hleast : Enforced ps start calls g ↔
      ((g.call ps).track ps s.maps).pages * ps ≤ g.total ps s.maps := by
    have hlast : ∀ limit, limitRun ps start (calls ++ [.setrlimit limit, .grow g]) =
        if g.total ps s.maps ≤ limit then some ⟨(g.call ps).track ps s.maps, limit⟩ else none := by
      intro limit
      unfold limitRun at hrun ⊢
      rw [List.foldlM_append, hrun]
      exact Option.bind_fun_some _
    constructor
    · intro h
      exact h (g.total ps s.maps) _ ((hlast _).trans (if_pos le_rfl))
    · intro h limit s' hs'
      rw [hlast] at hs'
      split_ifs at hs' with hle
      rw [← Option.some.inj hs']
      exact h.trans hle
  have hlow := le_roundUp hps (g.bytes ps)
  have hhigh := roundUp_lt hps (g.bytes ps)
  have hmax := Growth.bytes_lt hps hg
  rw [hleast, Growth.total_eq hg, Growth.pages_track hps]
  unfold Growth.Counted
  rcases Nat.lt_trichotomy (g.kept ps s.maps).pages s.maps.count with hlt | heq | hgt
  · have hmul := Nat.mul_le_mul_right ps (Nat.succ_le_of_lt hlt)
    rw [Nat.succ_mul] at hmul
    rw [and_iff_left (Or.inl hlt)]
    omega
  · have hdvd : ps ∣ g.bytes ps ↔ roundUp ps (g.bytes ps) = g.bytes ps :=
      ⟨roundUp_of_dvd hps, fun h => h ▸ dvd_roundUp ps _⟩
    rw [heq, hdvd]
    omega
  · have hmul := Nat.mul_le_mul_right ps (Nat.succ_le_of_lt hgt)
    rw [Nat.succ_mul] at hmul
    omega

/-- Pages of anonymous memory. -/
def pagesAt (res n : Nat) : Growth := .mmap res (n * 0x1000) 3 ⟨2, true, false, false, 0⟩ 0

/-- Ten pages next to an entry of one page. -/
theorem limit_enforced_first :
    Enforced 0x1000 ⟨⟨[], 0, 0⟩, 0x1000⟩ [.grow (pagesAt 0x10000 1)] (pagesAt 0x20000 10) := by
  obtain ⟨s, hrun, hs⟩ : ∃ s, limitRun 0x1000 ⟨⟨[], 0, 0⟩, 0x1000⟩ [.grow (pagesAt 0x10000 1)] = some s ∧
      (s.maps.count, s.maps.pages) = (1, 1) := Option.map_eq_some_iff.mp (by decide +kernel)
  obtain ⟨hcount, hpages⟩ := Prod.mk.inj hs
  exact (limit_enforced_iff (g := pagesAt 0x20000 10) (by decide) hrun ⟨by decide, by decide⟩
    (by rw [hcount]; decide)).mpr ⟨by rw [hcount]; decide, .inr ⟨hpages.trans hcount.symm, by decide⟩⟩

/-- Two mappings that touch are one entry: under a limit of sixteen pages there are twenty. -/
theorem limit_exceeded : ∃ s, limitRun 0x1000 ⟨⟨[], 0, 0⟩, 0⟩ [.setrlimit 0x10000,
    .grow (pagesAt 0x10000 10), .grow (pagesAt 0x1a000 10)] = some s ∧
      decide (s.limit < s.maps.pages * 0x1000) = true :=
  Option.map_eq_some_iff.mp (by decide +kernel)

end CosmoRuby.Mmap
