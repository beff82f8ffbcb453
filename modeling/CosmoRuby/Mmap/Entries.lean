import CosmoRuby.Mmap.Table

/-!
# What the table says of an address

Every entry stands for the addresses of its pages. The passes of `__muntrack` and `__mprotect` cut
an entry in pieces, `__maps_insert` joins neighbours; both are described by what they say of an
address.
-/

namespace CosmoRuby.Mmap

open CosmoRuby.Lib List

/-- What holds of a page: its protection, its sharing flags, and where in the file it is. -/
structure Attr where
  prot : Nat
  flags : Flags
  off : Option Int
deriving DecidableEq, Repr

def Map.attr (m : Map) (x : Nat) : Attr where
  prot := m.prot % 8
  flags := mapsFungeFlags m.flags
  off := if m.flags.anonymous then none else some (m.off + ((x - m.addr : Nat) : Int))

def Map.Holds (ps : Nat) (m : Map) (x : Nat) : Prop := m.addr ≤ x ∧ x < m.stop ps

def Denotes (ps : Nat) (maps : List Map) (x : Nat) (a : Attr) : Prop :=
  ∃ m ∈ maps, m.Holds ps x ∧ m.attr x = a

/-- An entry is nonempty, starts at a page and ends below the end of the address space. -/
structure Map.Ok (ps : Nat) (m : Map) : Prop where
  pos : 0 < m.size
  aligned : ps ∣ m.addr
  below : m.stop ps < 2 ^ 64

structure Ordered (ps : Nat) (maps : List Map) : Prop where
  ok : ∀ m ∈ maps, m.Ok ps
  sorted : maps.Pairwise fun a b => a.stop ps ≤ b.addr

def pagesOf (ps : Nat) (maps : List Map) : Nat := (maps.map fun m => pageCount ps m.size).sum

structure Maps.Valid (ps : Nat) (t : Maps) : Prop where
  ordered : Ordered ps t.maps
  count : t.count = t.maps.length
  pages : t.pages = pagesOf ps t.maps

section

variable {ps lo hi x : Nat} {m k : Map} {a : Attr} {l l' maps : List Map}

/-! ## Pages -/

theorem pageCount_mul (hps : 0 < ps) (n : Nat) : pageCount ps n * ps = roundUp ps n := by
  unfold pageCount roundUp
  rw [Nat.add_sub_assoc hps]

theorem pageCount_add (hps : 0 < ps) {n n₁ n₂ : Nat}
    (h : roundUp ps n = roundUp ps n₁ + roundUp ps n₂) :
    pageCount ps n = pageCount ps n₁ + pageCount ps n₂ := by
  apply Nat.eq_of_mul_eq_mul_right hps
  rw [Nat.add_mul, pageCount_mul hps, pageCount_mul hps, pageCount_mul hps, h]

section

variable (hps : 0 < ps) (hm : m.Ok ps)
include hps hm

theorem Map.Ok.stop_eq : m.stop ps = roundUp ps (m.addr + m.size) := by
  rw [roundUp_add hps hm.aligned]
  rfl

theorem Map.Ok.le_stop : m.addr + m.size ≤ m.stop ps := by
  rw [hm.stop_eq hps]
  exact le_roundUp hps _

theorem Map.Ok.lt_stop : m.addr < m.stop ps := by
  have hle := hm.le_stop hps
  have hpos := hm.pos
  omega

theorem Map.Ok.lt_of_lt_stop (hhi : ps ∣ hi) (hlt : hi < m.stop ps) : hi < m.addr + m.size := by
  by_contra hge
  have hle := roundUp_le hps (Nat.le_of_not_lt hge) hhi
  rw [← hm.stop_eq hps] at hle
  omega

end

/-! ## Pieces of an entry -/

theorem attr_right (hle : m.addr ≤ hi) (hx : hi ≤ x) : (m.right hi).attr x = m.attr x := by
  unfold Map.attr Map.right
  by_cases hanon : m.flags.anonymous
  · simp only [hanon, if_true]
  · simp only [hanon, Bool.false_eq_true, if_false, Attr.mk.injEq, Option.some.injEq, true_and]
    omega

section

variable (hps : 0 < ps) (hm : m.Ok ps)
include hps hm

theorem stop_left (hlo : ps ∣ lo) (hle : m.addr ≤ lo) : (m.left lo).stop ps = lo := by
  show m.addr + roundUp ps (lo - m.addr) = lo
  rw [roundUp_of_dvd hps (Nat.dvd_sub hlo hm.aligned)]
  omega

theorem stop_right (hhi : ps ∣ hi) (hlt : hi < m.stop ps) : (m.right hi).stop ps = m.stop ps := by
  have hin := hm.lt_of_lt_stop hps hhi hlt
  show hi + roundUp ps (m.addr + m.size - hi) = m.stop ps
  rw [← roundUp_add hps hhi, hm.stop_eq hps]
  congr 1
  omega

theorem ok_left (hlo : ps ∣ lo) (hle : m.addr < lo) (hlt : lo < m.stop ps) : (m.left lo).Ok ps where
  pos := by
    show 0 < lo - m.addr
    omega
  aligned := hm.aligned
  below := by
    rw [stop_left hps hm hlo (Nat.le_of_lt hle)]
    exact Nat.lt_trans hlt hm.below

theorem ok_right (hhi : ps ∣ hi) (hlt : hi < m.stop ps) : (m.right hi).Ok ps where
  pos := by
    have hin := hm.lt_of_lt_stop hps hhi hlt
    show 0 < m.addr + m.size - hi
    omega
  aligned := hhi
  below := by
    rw [stop_right hps hm hhi hlt]
    exact hm.below

end

structure Pieces (ps : Nat) (m : Map) (l : List Map) : Prop where
  ordered : Ordered ps l
  inside : ∀ k ∈ l, m.addr ≤ k.addr ∧ k.stop ps ≤ m.stop ps

variable {f : Map → List Map}

theorem Ordered.flatMap (hl : Ordered ps l)
    (hf : ∀ m ∈ l, Pieces ps m (f m)) : Ordered ps (l.flatMap f) := by
  refine ⟨?_, ?_⟩
  · intro k hk
    obtain ⟨m, hm, hk⟩ := List.mem_flatMap.mp hk
    exact (hf m hm).ordered.ok k hk
  · refine List.pairwise_flatMap.mpr ⟨fun m hm => (hf m hm).ordered.sorted, ?_⟩
    refine hl.sorted.imp_of_mem ?_
    intro m n hm hn hmn x hx y hy
    have hx' := ((hf m hm).inside x hx).2
    have hy' := ((hf n hn).inside y hy).1
    omega

/-! ## Lists of entries -/

theorem Ordered.append_left (h : Ordered ps (l ++ l')) : Ordered ps l :=
  ⟨fun m hm => h.ok m (mem_append_left _ hm), (List.pairwise_append.mp h.sorted).1⟩

theorem Ordered.append_right (h : Ordered ps (l ++ l')) : Ordered ps l' :=
  ⟨fun m hm => h.ok m (mem_append_right _ hm), (List.pairwise_append.mp h.sorted).2.1⟩

theorem Ordered.before (h : Ordered ps (l ++ l')) (hm : m ∈ l) (hk : k ∈ l') :
    m.stop ps ≤ k.addr :=
  (List.pairwise_append.mp h.sorted).2.2 m hm k hk

theorem Ordered.append (hl : Ordered ps l) (hl' : Ordered ps l')
    (h : ∀ m ∈ l, ∀ k ∈ l', m.stop ps ≤ k.addr) : Ordered ps (l ++ l') := by
  refine ⟨?_, List.pairwise_append.mpr ⟨hl.sorted, hl'.sorted, h⟩⟩
  intro m hm
  rcases List.mem_append.mp hm with hm | hm
  · exact hl.ok m hm
  · exact hl'.ok m hm

theorem denotes_append :
    Denotes ps (l ++ l') x a ↔ Denotes ps l x a ∨ Denotes ps l' x a := by
  unfold Denotes
  simp only [mem_append, or_and_right, exists_or]

theorem denotes_cons :
    Denotes ps (m :: l) x a ↔ (m.Holds ps x ∧ m.attr x = a) ∨ Denotes ps l x a := by
  unfold Denotes
  simp only [mem_cons, or_and_right, exists_or, exists_eq_left]

theorem denotes_nil : ¬ Denotes ps [] x a := by
  rintro ⟨m, hm, -⟩
  exact absurd hm not_mem_nil

theorem denotes_flatMap : Denotes ps (l.flatMap f) x a ↔ ∃ m ∈ l, Denotes ps (f m) x a := by
  unfold Denotes
  simp only [mem_flatMap]
  constructor
  · rintro ⟨k, ⟨m, hm, hk⟩, h⟩
    exact ⟨m, hm, k, hk, h⟩
  · rintro ⟨m, hm, k, hk, h⟩
    exact ⟨k, ⟨m, hm, hk⟩, h⟩

theorem pagesOf_append : pagesOf ps (l ++ l') = pagesOf ps l + pagesOf ps l' := by
  unfold pagesOf
  rw [map_append, sum_append]

theorem pagesOf_cons : pagesOf ps (m :: l) = pageCount ps m.size + pagesOf ps l := by
  unfold pagesOf
  rw [map_cons, sum_cons]

def Apart (ps : Nat) (m k : Map) : Prop := m.stop ps ≤ k.addr ∨ k.stop ps ≤ m.addr

instance (ps : Nat) : Std.Symm (Apart ps) := ⟨fun _ _ => Or.symm⟩

theorem Ordered.apart (h : Ordered ps l) (hm : m ∈ l) (hk : k ∈ l) (hne : m ≠ k) :
    Apart ps m k :=
  (h.sorted.imp (S := Apart ps) Or.inl).forall hm hk hne

theorem Ordered.eq_of_holds (h : Ordered ps l) (hm : m ∈ l) (hk : k ∈ l) (hmx : m.Holds ps x)
    (hkx : k.Holds ps x) : m = k := by
  by_contra hne
  have hapart := h.apart hm hk hne
  unfold Apart at hapart
  unfold Map.Holds at hmx hkx
  omega

/-! ## The entries the loops do not look at -/

theorem outside_of_mem_beforeRange (h : Ordered ps maps) (hm : m ∈ beforeRange lo maps) :
    m.Outside ps lo hi := by
  have hsplit : maps.takeWhile (fun m => m.addr ≤ lo) ++ maps.dropWhile (fun m => m.addr ≤ lo) =
      maps := takeWhile_append_dropWhile
  -- the entries in front of the last one that begins at or before the range
  have hm' : m ∈ (maps.takeWhile fun m => m.addr ≤ lo).dropLast := by
    unfold beforeRange mapsFloor at hm
    nth_rewrite 2 [← hsplit] at hm
    rw [take_append_of_le_length (Nat.sub_le _ _)] at hm
    rwa [dropLast_eq_take]
  have hne : (maps.takeWhile fun m => m.addr ≤ lo) ≠ [] := by
    intro hnil
    rw [hnil] at hm'
    exact absurd hm' not_mem_nil
  rw [← hsplit] at h
  have hfront := h.append_left
  rw [← dropLast_append_getLast hne] at hfront
  have hstop := hfront.before hm' (List.mem_singleton.mpr rfl)
  have hfloor := mem_takeWhile_imp (getLast_mem hne)
  have hle : ((maps.takeWhile fun m => m.addr ≤ lo).getLast hne).addr ≤ lo :=
    of_decide_eq_true hfloor
  unfold Map.Outside
  omega

/-- The first entry that is kept begins after the address, and so do the others. -/
theorem lt_of_mem_dropWhile (hps : 0 < ps) (h : Ordered ps (l.dropWhile fun k => k.addr ≤ hi))
    (hm : m ∈ l.dropWhile fun k => k.addr ≤ hi) : hi < m.addr := by
  have hhead := List.head?_dropWhile_not (fun k : Map => decide (k.addr ≤ hi)) l
  revert h hm hhead
  generalize l.dropWhile (fun k => decide (k.addr ≤ hi)) = rest
  intro h hm hhead
  cases rest with
  | nil => exact absurd hm not_mem_nil
  | cons y rest =>
    have hy : hi < y.addr := by simpa using hhead
    rcases List.mem_cons.mp hm with rfl | hm
    · exact hy
    · have hbefore := h.before (l := [y]) (List.mem_singleton.mpr rfl) hm
      have := (h.ok y mem_cons_self).lt_stop hps
      omega

theorem outside_of_mem_afterRange (hps : 0 < ps) (h : Ordered ps maps)
    (hm : m ∈ afterRange lo hi maps) : m.Outside ps lo hi := by
  have hsuffix : Ordered ps (afterRange lo hi maps) := by
    rw [← beforeRange_visited_afterRange lo hi maps] at h
    exact h.append_right
  have hhi := lt_of_mem_dropWhile hps hsuffix hm
  unfold Map.Outside
  omega

theorem flatMap_of_outside (hf : ∀ m : Map, m.Outside ps lo hi → f m = [m])
    (hl : ∀ m ∈ l, m.Outside ps lo hi) : l.flatMap f = l := by
  induction l with
  | nil => rfl
  | cons m l ih =>
    rw [flatMap_cons, hf m (hl m mem_cons_self),
      ih fun k hk => hl k (mem_cons_of_mem _ hk)]
    rfl

theorem flatMap_visited (hps : 0 < ps) (h : Ordered ps maps)
    (hf : ∀ m : Map, m.Outside ps lo hi → f m = [m]) :
    beforeRange lo maps ++ (visited lo hi maps).flatMap f ++ afterRange lo hi maps =
      maps.flatMap f := by
  conv_rhs => rw [← beforeRange_visited_afterRange lo hi maps]
  rw [flatMap_append, flatMap_append,
    flatMap_of_outside hf fun m hm => outside_of_mem_beforeRange h hm,
    flatMap_of_outside hf fun m hm => outside_of_mem_afterRange hps h hm]

theorem mem_flatMap_visited {β : Type} {f : Map → List β} (hps : 0 < ps) (h : Ordered ps maps)
    (hf : ∀ m : Map, m.Outside ps lo hi → f m = []) :
    (visited lo hi maps).flatMap f = maps.flatMap f := by
  conv_rhs => rw [← beforeRange_visited_afterRange lo hi maps]
  have hbefore : (beforeRange lo maps).flatMap f = [] :=
    List.flatMap_eq_nil_iff.mpr fun m hm => hf m (outside_of_mem_beforeRange h hm)
  have hafter : (afterRange lo hi maps).flatMap f = [] :=
    List.flatMap_eq_nil_iff.mpr fun m hm => hf m (outside_of_mem_afterRange hps h hm)
  rw [flatMap_append, flatMap_append, hbefore, hafter, append_nil, nil_append]

/-! ## Entries that tile a stretch of pages -/

/-- The entries lie one after the other from `s` to `e` and say `g` of each address. -/
def Tiles (ps : Nat) (g : Nat → Attr) : List Map → Nat → Nat → Prop
  | [], s, e => s = e
  | k :: l, s, e =>
    k.Ok ps ∧ k.addr = s ∧ (∀ x, s ≤ x → x < k.stop ps → k.attr x = g x) ∧
      Tiles ps g l (k.stop ps) e

variable {g : Nat → Attr} {s e : Nat}

section

variable (hps : 0 < ps) (h : Tiles ps g l s e)
include hps h

theorem Tiles.le : s ≤ e := by
  induction l generalizing s with
  | nil => exact Nat.le_of_eq h
  | cons k l ih =>
    obtain ⟨hk, rfl, -, hl⟩ := h
    exact Nat.le_trans (Nat.le_of_lt (hk.lt_stop hps)) (ih hl)

theorem Tiles.inside (hk : k ∈ l) : s ≤ k.addr ∧ k.stop ps ≤ e := by
  induction l generalizing s with
  | nil => exact absurd hk not_mem_nil
  | cons m l ih =>
    obtain ⟨hm, rfl, -, hl⟩ := h
    rcases List.mem_cons.mp hk with rfl | hk
    · exact ⟨Nat.le_refl _, hl.le hps⟩
    · have hin := ih hl hk
      have := hm.lt_stop hps
      omega

theorem Tiles.ordered : Ordered ps l := by
  induction l generalizing s with
  | nil => exact ⟨fun _ h => absurd h not_mem_nil, List.Pairwise.nil⟩
  | cons m l ih =>
    obtain ⟨hm, rfl, -, hl⟩ := h
    have hrest := ih hl
    exact ⟨List.forall_mem_cons.mpr ⟨hm, hrest.ok⟩,
      List.pairwise_cons.mpr ⟨fun k hk => (hl.inside hps hk).1, hrest.sorted⟩⟩

theorem Tiles.denotes : Denotes ps l x a ↔ (s ≤ x ∧ x < e) ∧ g x = a := by
  induction l generalizing s with
  | nil =>
    refine ⟨fun h => absurd h denotes_nil, ?_⟩
    rintro ⟨hx, -⟩
    have hse : s = e := h
    omega
  | cons m l ih =>
    obtain ⟨hm, rfl, hg, hl⟩ := h
    have hpos := hm.lt_stop hps
    have hle := hl.le hps
    rw [denotes_cons, ih hl]
    constructor
    · rintro (⟨hx, rfl⟩ | ⟨hx, rfl⟩)
      · exact ⟨⟨hx.1, Nat.lt_of_lt_of_le hx.2 hle⟩, (hg x hx.1 hx.2).symm⟩
      · exact ⟨⟨by omega, hx.2⟩, rfl⟩
    · rintro ⟨hx, rfl⟩
      by_cases hin : x < m.stop ps
      · exact Or.inl ⟨⟨hx.1, hin⟩, hg x hx.1 hin⟩
      · exact Or.inr ⟨⟨by omega, hx.2⟩, rfl⟩

theorem Tiles.pages : s + pagesOf ps l * ps = e := by
  induction l generalizing s with
  | nil =>
    have hse : s = e := h
    show s + 0 * ps = e
    omega
  | cons m l ih =>
    obtain ⟨hm, rfl, -, hl⟩ := h
    rw [pagesOf_cons, Nat.add_mul, pageCount_mul hps, ← Nat.add_assoc]
    exact ih hl

end

theorem tiles_left (hps : 0 < ps) (hm : m.Ok ps) (hlo : ps ∣ lo) (hlt : m.addr < lo)
    (hin : lo < m.stop ps) (hg : ∀ x, m.addr ≤ x → x < lo → m.attr x = g x)
    (hl : Tiles ps g l lo e) : Tiles ps g (m.left lo :: l) m.addr e := by
  have hstop := stop_left hps hm hlo (Nat.le_of_lt hlt)
  refine ⟨ok_left hps hm hlo hlt hin, rfl, ?_, ?_⟩
  · rw [hstop]
    exact hg
  · rwa [hstop]

theorem tiles_right (hps : 0 < ps) (hm : m.Ok ps) (hhi : ps ∣ hi) (hle : m.addr ≤ hi)
    (hin : hi < m.stop ps) (hg : ∀ x, hi ≤ x → x < m.stop ps → m.attr x = g x) :
    Tiles ps g [m.right hi] hi (m.stop ps) := by
  have hstop := stop_right hps hm hhi hin
  refine ⟨ok_right hps hm hhi hin, rfl, ?_, hstop⟩
  intro x hx hxs
  rw [hstop] at hxs
  rw [attr_right hle hx, hg x hx hxs]

/-! ## `cut` -/

theorem cut_of_outside (h : m.Outside ps lo hi) : cut ps lo hi m = [m] := if_pos h

section

variable (hps : 0 < ps) (hm : m.Ok ps) (hlo : ps ∣ lo) (hhi : ps ∣ hi)
include hps hm hlo hhi

/-- What is left tiles the entry on both sides of a gap, which is the range where it meets the entry. -/
theorem tiles_cut : ∃ before after s e, cut ps lo hi m = before ++ after ∧ Tiles ps m.attr before m.addr s ∧
    Tiles ps m.attr after e (m.stop ps) ∧ s + cutPages ps lo hi m * ps = e ∧
      ∀ x, m.addr ≤ x → x < m.stop ps → (x < s ∨ e ≤ x ↔ ¬ (lo ≤ x ∧ x < hi)) := by
  have hself := hm.lt_stop hps
  have hleft (h₁ : m.addr < lo) (h₂ : lo < m.stop ps) : Tiles ps m.attr [m.left lo] m.addr lo :=
    tiles_left hps hm hlo h₁ h₂ (fun _ _ _ => rfl) rfl
  have hright (h₁ : m.addr ≤ hi) (h₂ : hi < m.stop ps) : Tiles ps m.attr [m.right hi] hi (m.stop ps) :=
    tiles_right hps hm hhi h₁ h₂ fun _ _ _ => rfl
  unfold cut cutPages
  by_cases hout : m.Outside ps lo hi
  · rw [if_pos hout, if_pos hout]
    unfold Map.Outside at hout
    exact ⟨[m], [], m.stop ps, m.stop ps, rfl, ⟨hm, rfl, fun _ _ _ => rfl, rfl⟩, rfl, by omega, by omega⟩
  rw [if_neg hout, if_neg hout]
  unfold Map.Outside at hout
  by_cases hcov : m.Covered ps lo hi
  · rw [if_pos hcov, if_pos hcov]
    unfold Map.Covered at hcov
    exact ⟨[], [], m.addr, m.stop ps, rfl, rfl, rfl, by rw [pageCount_mul hps]; rfl, by omega⟩
  rw [if_neg hcov, if_neg hcov]
  unfold Map.Covered at hcov
  by_cases hlow : lo ≤ m.addr
  · rw [if_pos hlow, if_pos hlow]
    refine ⟨[], _, m.addr, hi, rfl, rfl, hright (by omega) (by omega), ?_, by omega⟩
    rw [pageCount_mul hps, roundUp_sub hps hm.aligned hhi]
    omega
  rw [if_neg hlow, if_neg hlow]
  by_cases hhigh : m.stop ps ≤ hi
  · rw [if_pos hhigh, if_pos hhigh]
    refine ⟨[m.left lo], [], lo, m.stop ps, rfl, hleft (by omega) (by omega), rfl, ?_, by omega⟩
    rw [pageCount_mul hps]
    exact stop_right hps hm hlo (by omega)
  · rw [if_neg hhigh, if_neg hhigh]
    refine ⟨[m.left lo], _, lo, hi, rfl, hleft (by omega) (by omega), hright (by omega) (by omega), ?_, by omega⟩
    rw [pageCount_mul hps, roundUp_sub hps hlo hhi]
    omega

theorem pieces_cut : Pieces ps m (cut ps lo hi m) := by
  obtain ⟨before, after, s, e, hcut, hbefore, hafter, hgap, -⟩ := tiles_cut hps hm hlo hhi
  have hs := hbefore.le hps
  have he := hafter.le hps
  have hse : s ≤ e := hgap ▸ Nat.le_add_right s _
  rw [hcut]
  refine ⟨(hbefore.ordered hps).append (hafter.ordered hps) fun k hk y hy => ?_, fun k hk => ?_⟩
  · have hk' := hbefore.inside hps hk
    have hy' := hafter.inside hps hy
    omega
  · rcases List.mem_append.mp hk with hk | hk
    · have hin := hbefore.inside hps hk
      omega
    · have hin := hafter.inside hps hk
      omega

theorem denotes_cut :
    Denotes ps (cut ps lo hi m) x a ↔ (m.Holds ps x ∧ m.attr x = a) ∧ ¬ (lo ≤ x ∧ x < hi) := by
  obtain ⟨before, after, s, e, hcut, hbefore, hafter, hgap, hrange⟩ := tiles_cut hps hm hlo hhi
  have hs := hbefore.le hps
  have he := hafter.le hps
  have hse : s ≤ e := hgap ▸ Nat.le_add_right s _
  have hx := hrange x
  rw [hcut, denotes_append, hbefore.denotes hps, hafter.denotes hps, ← or_and_right, and_right_comm]
  refine and_congr_left fun _ => ?_
  unfold Map.Holds
  omega

theorem pagesOf_cut : pageCount ps m.size = pagesOf ps (cut ps lo hi m) + cutPages ps lo hi m := by
  obtain ⟨before, after, s, e, hcut, hbefore, hafter, hgap, -⟩ := tiles_cut hps hm hlo hhi
  have hs := hbefore.pages hps
  have he := hafter.pages hps
  have hstop : m.stop ps = m.addr + roundUp ps m.size := rfl
  apply Nat.eq_of_mul_eq_mul_right hps
  rw [hcut, pagesOf_append, Nat.add_mul, Nat.add_mul, pageCount_mul hps]
  omega

end

/-! ## `reprotect` -/

def protectAttr (lo hi prot x : Nat) (a : Attr) : Attr :=
  if lo ≤ x ∧ x < hi then { a with prot := prot % 8 } else a

theorem reprotect_of_outside {prot : Nat} (h : m.Outside ps lo hi) :
    reprotect ps lo hi prot m = [m] := if_pos h

theorem tiles_reprotect (hps : 0 < ps) (hm : m.Ok ps) (hlo : ps ∣ lo) (hhi : ps ∣ hi)
    (prot : Nat) :
    Tiles ps (fun x => protectAttr lo hi prot x (m.attr x)) (reprotect ps lo hi prot m) m.addr
      (m.stop ps) := by
  have hself := hm.lt_stop hps
  have hkeep : ∀ {x}, ¬ (lo ≤ x ∧ x < hi) → m.attr x = protectAttr lo hi prot x (m.attr x) :=
    fun hx => (if_neg hx).symm
  have hset : ∀ {x}, lo ≤ x ∧ x < hi →
      ({ m.attr x with prot := prot % 8 } : Attr) = protectAttr lo hi prot x (m.attr x) :=
    fun hx => (if_pos hx).symm
  unfold reprotect
  split <;> rename_i hout
  · unfold Map.Outside at hout
    exact ⟨hm, rfl, fun x hx hxs => hkeep (by omega), rfl⟩
  unfold Map.Outside at hout
  split <;> rename_i hcov
  · unfold Map.Covered at hcov
    refine ⟨{ hm with }, rfl, fun x hx hxs => hset ?_, rfl⟩
    have hxs' : x < m.stop ps := hxs
    omega
  unfold Map.Covered at hcov
  split <;> rename_i hlow
  · have hstop := stop_left hps hm hhi (by omega : m.addr ≤ hi)
    have hok := ok_left hps hm hhi (by omega) (by omega)
    refine ⟨{ hok with }, rfl, ?_, ?_⟩
    · intro x hx hxs
      have hxs' : x < (m.left hi).stop ps := hxs
      rw [hstop] at hxs'
      exact hset (by omega)
    · show Tiles ps _ _ ((m.left hi).stop ps) _
      rw [hstop]
      exact tiles_right hps hm hhi (by omega) (by omega) fun x hx hxs => hkeep (by omega)
  have hbelow : ∀ x, m.addr ≤ x → x < lo → m.attr x = protectAttr lo hi prot x (m.attr x) :=
    fun x _ hx => hkeep (by omega)
  split <;> rename_i hhigh
  · refine tiles_left hps hm hlo (by omega) (by omega) hbelow ?_
    have hstop := stop_right hps hm hlo (by omega)
    have hok := ok_right hps hm hlo (by omega)
    refine ⟨{ hok with }, rfl, ?_, hstop⟩
    intro x hx hxs
    have hxs' : x < (m.right lo).stop ps := hxs
    rw [hstop] at hxs'
    refine Eq.trans ?_ (hset (by omega))
    rw [← attr_right (by omega : m.addr ≤ lo) hx]
    rfl
  refine tiles_left hps hm hlo (by omega) (by omega) hbelow ?_
  have hmid : lo + roundUp ps (hi - lo) = hi := by
    rw [roundUp_of_dvd hps (Nat.dvd_sub hhi hlo)]
    omega
  have hbelow := hm.below
  refine ⟨⟨?_, hlo, ?_⟩, rfl, ?_, ?_⟩
  · show 0 < hi - lo
    omega
  · show lo + roundUp ps (hi - lo) < 2 ^ 64
    omega
  · intro x hx hxs
    have hxs' : x < lo + roundUp ps (hi - lo) := hxs
    refine Eq.trans ?_ (hset (by omega))
    unfold Map.attr
    by_cases hanon : m.flags.anonymous
    · simp only [hanon, if_true]
    · simp only [hanon, Bool.false_eq_true, if_false, Attr.mk.injEq, Option.some.injEq, true_and]
      omega
  · show Tiles ps _ _ (lo + roundUp ps (hi - lo)) _
    rw [hmid]
    exact tiles_right hps hm hhi (by omega) (by omega) fun x hx hxs => hkeep (by omega)

/-! ## Neighbours that are joined -/

structure Joins (ps : Nat) (m k z : Map) : Prop where
  addr : z.addr = m.addr
  size : z.size = roundUp ps m.size + k.size
  adjacent : m.stop ps = k.addr
  left : ∀ x, z.attr x = m.attr x
  right : ∀ x, z.attr x = k.attr x

variable {z : Map}

theorem attr_eq_of_anonymous (hz : z.flags.anonymous) (hm : m.flags.anonymous)
    (hprot : z.prot = m.prot) (hflags : mapsFungeFlags z.flags = mapsFungeFlags m.flags) :
    z.attr x = m.attr x := by
  unfold Map.attr
  simp only [hz, hm, hprot, hflags, if_true]

theorem mergeable_iff : mapsMergeable ps m k = true ↔ m.stop ps = k.addr ∧
    m.flags.anonymous = true ∧ k.flags.anonymous = true ∧ m.prot = k.prot ∧
      mapsFungeFlags m.flags = mapsFungeFlags k.flags := by
  unfold mapsMergeable
  simp only [Bool.and_eq_true, decide_eq_true_eq, and_assoc]

theorem joins_extend (h : mapsMergeable ps m k = true) : Joins ps m k (m.extend ps k) := by
  obtain ⟨hadj, hm, hk, hprot, hflags⟩ := mergeable_iff.mp h
  refine ⟨rfl, rfl, hadj, fun x => ?_, fun x => ?_⟩
  · exact attr_eq_of_anonymous hm hm rfl rfl
  · exact attr_eq_of_anonymous hm hk hprot hflags

theorem joins_extendDown (h : mapsMergeable ps m k = true) :
    Joins ps m k (m.extendDown ps k) := by
  obtain ⟨hadj, hm, hk, hprot, hflags⟩ := mergeable_iff.mp h
  refine ⟨?_, Nat.add_comm _ _, hadj, fun x => ?_, fun x => ?_⟩
  · show k.addr - roundUp ps m.size = m.addr
    rw [← hadj]
    exact Nat.add_sub_cancel _ _
  · exact attr_eq_of_anonymous hk hm hprot.symm hflags.symm
  · exact attr_eq_of_anonymous hk hk rfl rfl

theorem Joins.stop (hps : 0 < ps) (h : Joins ps m k z) : z.stop ps = k.stop ps := by
  have hadj := h.adjacent
  unfold Map.stop at hadj ⊢
  rw [h.addr, h.size, roundUp_add hps (dvd_roundUp ps _)]
  omega

/-- Two lists of entries that say the same of every address, with as many pages. -/
structure SameMap (ps : Nat) (l l' : List Map) : Prop where
  ordered : Ordered ps l'
  denotes : ∀ x a, Denotes ps l' x a ↔ Denotes ps l x a
  pages : pagesOf ps l' = pagesOf ps l

theorem SameMap.refl (h : Ordered ps l) : SameMap ps l l := ⟨h, fun _ _ => Iff.rfl, rfl⟩

theorem SameMap.trans {l₁ l₂ l₃ : List Map} (h₁ : SameMap ps l₁ l₂) (h₂ : SameMap ps l₂ l₃) :
    SameMap ps l₁ l₃ :=
  ⟨h₂.ordered, fun x a => (h₂.denotes x a).trans (h₁.denotes x a), h₂.pages.trans h₁.pages⟩

theorem SameMap.join (hps : 0 < ps) (h : Ordered ps (l ++ m :: k :: l'))
    (hz : Joins ps m k z) : SameMap ps (l ++ m :: k :: l') (l ++ z :: l') := by
  have hmk := h.append_right
  have hm := hmk.ok m mem_cons_self
  have hk := hmk.ok k (mem_cons_of_mem _ mem_cons_self)
  have hstop := hz.stop hps
  have hrest : Ordered ps l' := Ordered.append_right (l := [m, k]) hmk
  have hzok : z.Ok ps := by
    refine ⟨?_, ?_, ?_⟩
    · rw [hz.size]
      exact Nat.lt_of_lt_of_le hk.pos (Nat.le_add_left _ _)
    · rw [hz.addr]
      exact hm.aligned
    · rw [hstop]
      exact hk.below
  have hzl : Ordered ps (z :: l') := by
    refine ⟨List.forall_mem_cons.mpr ⟨hzok, hrest.ok⟩,
      List.pairwise_cons.mpr ⟨fun y hy => ?_, hrest.sorted⟩⟩
    rw [hstop]
    exact Ordered.before (l := [m, k]) hmk (mem_cons_of_mem _ mem_cons_self) hy
  refine ⟨h.append_left.append hzl ?_, ?_, ?_⟩
  · intro y hy y' hy'
    rcases List.mem_cons.mp hy' with rfl | hy'
    · rw [hz.addr]
      exact h.before hy mem_cons_self
    · exact h.before hy (mem_cons_of_mem _ (mem_cons_of_mem _ hy'))
  · intro x a
    have hadj := hz.adjacent
    have hlt := hm.lt_stop hps
    have hlt' := hk.lt_stop hps
    rw [denotes_append, denotes_append, denotes_cons, denotes_cons, denotes_cons]
    refine or_congr_right ?_
    rw [← or_assoc]
    refine or_congr_left ?_
    unfold Map.Holds
    rw [hstop, hz.addr]
    constructor
    · rintro ⟨hx, rfl⟩
      by_cases hxm : x < m.stop ps
      · exact Or.inl ⟨⟨hx.1, hxm⟩, (hz.left x).symm⟩
      · exact Or.inr ⟨⟨by omega, hx.2⟩, (hz.right x).symm⟩
    · rintro (⟨hx, rfl⟩ | ⟨hx, rfl⟩)
      · exact ⟨by omega, hz.left x⟩
      · exact ⟨by omega, hz.right x⟩
  · rw [pagesOf_append, pagesOf_append, pagesOf_cons, pagesOf_cons, pagesOf_cons]
    have hcount : pageCount ps z.size = pageCount ps m.size + pageCount ps k.size := by
      apply pageCount_add hps
      rw [hz.size, roundUp_add hps (dvd_roundUp ps _)]
    omega

/-- The second list comes from the first by joining neighbours. -/
inductive Joined (ps : Nat) : List Map → List Map → Prop where
  | refl (l : List Map) : Joined ps l l
  | join (l l' : List Map) {r : List Map} {m k z : Map} (hz : Joins ps m k z)
    (h : Joined ps (l ++ z :: l') r) :
    Joined ps (l ++ m :: k :: l') r

theorem joined_mergeNeighbours (left right : Option Map) :
    Joined ps (left.toList ++ m :: right.toList) (mergeNeighbours ps left m right) := by
  have hjoin : ∀ {x y z : Map}, Joins ps x y z → Joined ps [x, y] [z] :=
    fun hz => .join [] [] hz (.refl _)
  unfold mergeNeighbours
  rcases left with _ | w <;> rcases right with _ | y
  · exact .refl _
  · dsimp only
    split_ifs with hy
    · exact hjoin (joins_extendDown hy)
    · exact .refl _
  · dsimp only
    split_ifs with hw
    · exact hjoin (joins_extend hw)
    · exact .refl _
  · dsimp only
    split_ifs with hw hy hy hwy
    · exact .join [] [y] (joins_extend hw) (hjoin (joins_extend hy))
    · exact .join [] [y] (joins_extend hw) (.refl _)
    · exact .join [w] [] (joins_extendDown hy) (hjoin (joins_extend hwy))
    · exact .join [w] [] (joins_extendDown hy) (.refl _)
    · exact .refl _

theorem Joined.context {u v : List Map} (h : Joined ps u v) (l l' : List Map) :
    Joined ps (l ++ u ++ l') (l ++ v ++ l') := by
  induction h with
  | refl => exact .refl _
  | @join before behind r x y z hz _ ih =>
    have hone := Joined.join (r := l ++ r ++ l') (l ++ before) (behind ++ l') hz
    simp only [append_assoc, cons_append] at hone ih ⊢
    exact hone ih

theorem Joined.sameMap (hps : 0 < ps) (hj : Joined ps l l') (h : Ordered ps l) : SameMap ps l l' := by
  induction hj with
  | refl => exact SameMap.refl h
  | join _ _ hz _ ih =>
    have hone := SameMap.join hps h hz
    exact hone.trans (ih hone.ordered)

end

end CosmoRuby.Mmap
