import CosmoRuby.Mmap.Mirror

/-!
# Picking an address

`__maps_pickaddr` of `mmap.c`, with the page size and the granularity of Windows.
-/

namespace CosmoRuby.Mmap

open CosmoRuby.Lib List

abbrev pagesize : Nat := 4096

abbrev gransize : Nat := 65536

/-- `GRUP` -/
def grup (n : Nat) : Nat := roundUp gransize n % 2 ^ 64

/-- Where the room beneath an entry begins, by the entry before it. -/
def roomStart : Option Map → Nat
  | none => gransize
  | some m => (m.addr + grup m.size) % 2 ^ 64

/-- The loop over the entries from the last one on, and the entry that has room beneath it. -/
def roomy (size : Nat) : List Map → Option Map
  | [] => none
  | m :: before =>
    if roomStart before.head? < m.addr ∧ size ≤ m.addr - roomStart before.head? then some m else roomy size before

/-- Appending, with a sum of `intptr_t`. -/
def pickAfter (size : Nat) (last : Map) : Nat :=
  if 2 ^ 63 ≤ (roomStart (some last) : Int).bmod (2 ^ 64) + size then 0 else roomStart (some last)

/-- `__maps_pickaddr`, which is not possible without an entry. -/
def mapsPickaddr (size : Nat) (t : Maps) : Option Nat :=
  t.maps.getLast?.map fun last =>
    let addr := ((roomy (grup size) t.maps.reverse).map fun m => m.addr - grup size).getD 0
    if addr ≠ 0 then addr else pickAfter (grup size) last

def FreeAt (size : Nat) (t : Maps) (a : Nat) : Prop :=
  gransize ∣ a ∧ gransize ≤ a ∧ ∀ x, a ≤ x → x < a + roundUp gransize size → ¬ Tracked pagesize t x

def PicksFree (size : Nat) (t : Maps) : Prop :=
  ∀ a, mapsPickaddr size t = some a → a ≠ 0 → FreeAt size t a

/-- An entry of user memory: `intptr_t` holds its end, also rounded up. -/
structure Map.User (m : Map) : Prop extends Map.Ok pagesize m where
  low : m.stop pagesize + gransize ≤ 2 ^ 63

/-- Beneath `m` there are `n` bytes, and at least one, that are not in the granules of an entry. -/
def HasGap (n : Nat) (l : List Map) (m : Map) : Prop :=
  gransize + max 1 n ≤ m.addr ∧
    ∀ k ∈ l, k.addr < m.addr → k.addr + roundUp gransize k.size + max 1 n ≤ m.addr

def HighestGap (n : Nat) (l : List Map) (m : Map) : Prop :=
  m ∈ l ∧ HasGap n l m ∧ ∀ k ∈ l, m.addr < k.addr → ¬ HasGap n l k

/-! ## The room beneath an entry -/

variable {t : Maps} {m last : Map} {l : List Map} {size a : Nat}

theorem Map.User.roomStart (h : m.User) : m.addr < m.stop pagesize ∧ m.stop pagesize ≤ Mmap.roomStart (some m) ∧
    Mmap.roomStart (some m) = m.addr + roundUp gransize m.size ∧ Mmap.roomStart (some m) < 2 ^ 63 := by
  have hlow : m.stop pagesize + 65536 ≤ 2 ^ 63 := h.low
  have hle := h.le_stop (by decide)
  have hup : roundUp gransize m.size < m.size + 65536 := roundUp_lt (by decide) m.size
  have heq : Mmap.roomStart (some m) = m.addr + roundUp gransize m.size := by
    show (m.addr + roundUp gransize m.size % 2 ^ 64) % 2 ^ 64 = _
    omega
  -- a multiple of the granularity is one of the page size
  have hround : roundUp pagesize m.size ≤ roundUp gransize m.size :=
    roundUp_le (by decide) (le_roundUp (by decide) _) ((by decide : pagesize ∣ gransize).trans (dvd_roundUp _ _))
  refine ⟨h.lt_stop (by decide), ?_, heq, by omega⟩
  rw [heq]
  exact Nat.add_le_add_left hround m.addr

section

variable (hsorted : l.Pairwise fun a b => b.stop pagesize ≤ a.addr) (hl : ∀ k ∈ l, k.User)
include hsorted hl

theorem le_roomStart : gransize ≤ roomStart l.head? ∧
    ∀ k ∈ l, k.addr + roundUp gransize k.size ≤ roomStart l.head? := by
  cases l with
  | nil => exact ⟨Nat.le_refl _, fun k hk => absurd hk not_mem_nil⟩
  | cons p l =>
    obtain ⟨hlt, -, heq, -⟩ := (hl p mem_cons_self).roomStart
    have hgran : gransize ≤ roundUp gransize p.size :=
      Nat.le_of_dvd (roundUp_pos (by decide) (hl p mem_cons_self).pos.ne') (dvd_roundUp _ _)
    rw [head?_cons, heq]
    refine ⟨by omega, forall_mem_cons.mpr ⟨Nat.le_refl _, fun k hk => ?_⟩⟩
    -- less than a granule is added to an entry before, and a whole one to this
    have hkp := (pairwise_cons.mp hsorted).1 k hk
    have hle := (hl k (mem_cons_of_mem _ hk)).le_stop (by decide)
    have hup : roundUp gransize k.size < k.size + gransize := roundUp_lt (by decide) k.size
    omega

theorem stop_le_roomStart : ∀ k ∈ l, k.stop pagesize ≤ roomStart l.head? := by
  intro k hk
  obtain ⟨-, hstop, heq, -⟩ := (hl k hk).roomStart
  exact (heq ▸ hstop).trans ((le_roomStart hsorted hl).2 k hk)

theorem roomy_eq_some_iff : roomy size l = some m ↔ HighestGap size l m := by
  induction l with
  | nil => exact iff_of_false nofun fun h => not_mem_nil h.1
  | cons k l ih =>
    obtain ⟨hk, hrest⟩ := pairwise_cons.mp hsorted
    have hbefore := (forall_mem_cons.mp hl).2
    have hlt (j : Map) (hj : j ∈ l) : j.addr < k.addr :=
      (hbefore j hj).roomStart.1.trans_le (hk j hj)
    have hgap : (roomStart l.head? < k.addr ∧ size ≤ k.addr - roomStart l.head?) ↔
        HasGap size (k :: l) k := by
      obtain ⟨hgran, hle⟩ := le_roomStart hrest hbefore
      constructor
      · intro hroom
        refine ⟨by omega, forall_mem_cons.mpr ⟨fun hno => absurd hno (Nat.lt_irrefl _), fun j hj _ => ?_⟩⟩
        have hj := hle j hj
        omega
      · rintro ⟨hfloor, hall⟩
        cases l with
        | nil =>
          show gransize < k.addr ∧ size ≤ k.addr - gransize
          omega
        | cons p l =>
          have hp := hall p (mem_cons_of_mem _ mem_cons_self) (hlt p mem_cons_self)
          rw [head?_cons, (hbefore p mem_cons_self).roomStart.2.2.1]
          omega
    -- the entry above does not count for those before it
    have hsame (j : Map) (hj : j ∈ l) : HasGap size (k :: l) j ↔ HasGap size l j := by
      unfold HasGap
      rw [forall_mem_cons, and_iff_right fun hno => absurd hno (hlt j hj).le.not_gt]
    rw [roomy]
    split_ifs with hroom
    · constructor
      · rintro ⟨⟩
        refine ⟨mem_cons_self, hgap.mp hroom, forall_mem_cons.mpr ⟨fun hno => absurd hno (Nat.lt_irrefl _), ?_⟩⟩
        exact fun j hj hno => absurd hno (hlt j hj).le.not_gt
      · rintro ⟨hm, -, hno⟩
        rcases mem_cons.mp hm with rfl | hm
        · rfl
        · exact absurd (hgap.mp hroom) (hno k mem_cons_self (hlt m hm))
    · rw [ih hrest hbefore]
      have hnot : ¬ HasGap size (k :: l) k := fun h => hroom (hgap.mpr h)
      constructor
      · rintro ⟨hm, hroom, hno⟩
        exact ⟨mem_cons_of_mem _ hm, (hsame m hm).mpr hroom, forall_mem_cons.mpr
          ⟨fun _ => hnot, fun j hj hmj hj' => hno j hj hmj ((hsame j hj).mp hj')⟩⟩
      · rintro ⟨hm, hroom, hno⟩
        rcases mem_cons.mp hm with rfl | hm
        · exact absurd hroom hnot
        · exact ⟨hm, (hsame m hm).mp hroom, fun j hj hmj hj' =>
            hno j (mem_cons_of_mem _ hj) hmj ((hsame j hj).mpr hj')⟩

end

/-- In the gap beneath an entry no other entry is. -/
theorem HighestGap.room (hl : ∀ k ∈ l, k.User) (h : HighestGap size l m) :
    m ∈ l ∧ size < m.addr ∧ ∀ k ∈ l, k.stop pagesize ≤ m.addr - size ∨ m.addr ≤ k.addr := by
  obtain ⟨hm, ⟨hfloor, hall⟩, -⟩ := h
  have hgran : 0 < gransize := by decide
  refine ⟨hm, by omega, fun k hk => ?_⟩
  by_cases hlt : k.addr < m.addr
  · obtain ⟨-, hstop, heq, -⟩ := (hl k hk).roomStart
    have hgap := hall k hk hlt
    exact .inl (by omega)
  · exact .inr (Nat.le_of_not_lt hlt)

/-! ## The address -/

theorem freeAt_iff (ha : a ≠ 0)
    (hclear : ∀ k ∈ t.maps, k.stop pagesize ≤ a ∨ a + roundUp gransize size ≤ k.addr) :
    FreeAt size t a ↔ gransize ∣ a := by
  refine ⟨And.left, fun h => ⟨h, Nat.le_of_dvd (Nat.pos_of_ne_zero ha) h, ?_⟩⟩
  rintro x hlow hhigh ⟨k, hk, hstart, hstop⟩
  rcases hclear k hk with hk | hk <;> omega

theorem picksFree_of_pick (h : mapsPickaddr size t = some a) : PicksFree size t ↔ (a ≠ 0 → FreeAt size t a) := by
  rw [PicksFree, h]
  exact ⟨fun hfree => hfree a rfl, fun hfree b hb => Option.some.inj hb ▸ hfree⟩

theorem Map.User.pickAfter (h : m.User) : Mmap.pickAfter size m =
    if m.addr + roundUp gransize m.size + size < 2 ^ 63 then m.addr + roundUp gransize m.size else 0 := by
  obtain ⟨-, -, heq, hlt⟩ := h.roomStart
  have hsum : (Mmap.roomStart (some m) : Int).bmod (2 ^ 64) = Mmap.roomStart (some m) :=
    Int.bmod_eq_of_le (by omega) (by omega)
  unfold Mmap.pickAfter
  rw [heq] at hsum ⊢
  simp only [hsum]
  split_ifs <;> omega

/-- The address is free and a multiple of the granularity exactly if an entry that has a gap of the size
beneath it and none such above it starts at one, and the size does not wrap; and if the last entry starts at one
where there is no gap and the size ends below `2^63` behind it. -/
theorem picksFree_iff (h : Ordered pagesize t.maps) (hlow : ∀ m ∈ t.maps, m.stop pagesize + gransize ≤ 2 ^ 63)
    (size : Nat) : PicksFree size t ↔
      (∀ m, HighestGap (grup size) t.maps m → roundUp gransize size < 2 ^ 64 ∧ gransize ∣ m.addr) ∧
      ((∀ m, ¬ HighestGap (grup size) t.maps m) → ∀ last, t.maps.getLast? = some last →
        last.addr + roundUp gransize last.size + grup size < 2 ^ 63 → gransize ∣ last.addr) := by
  have ht (k : Map) (hk : k ∈ t.maps) : k.User := ⟨h.ok k hk, hlow k hk⟩
  have hrev := pairwise_reverse.mpr h.sorted
  have hrevt (k : Map) (hk : k ∈ t.maps.reverse) : k.User := ht k (mem_reverse.mp hk)
  have hsome (m : Map) : HighestGap (grup size) t.maps m ↔ roomy (grup size) t.maps.reverse = some m := by
    rw [roomy_eq_some_iff hrev hrevt]
    simp only [HighestGap, HasGap, mem_reverse]
  simp only [hsome, ← ne_eq, ← Option.eq_none_iff_forall_ne_some]
  cases hlast : t.maps.getLast? with
  | none =>
    rw [PicksFree, mapsPickaddr, hlast, getLast?_eq_none_iff.mp hlast]
    simp [roomy]
  | some last =>
    cases hroomy : roomy (grup size) t.maps.reverse with
    | some m =>
      obtain ⟨hmem, hlt, hout⟩ := ((hsome m).mpr hroomy).room ht
      have hne : m.addr - grup size ≠ 0 := by omega
      rw [picksFree_of_pick (a := m.addr - grup size) (by simp [mapsPickaddr, hlast, hroomy, hne])]
      simp only [hne, ne_eq, not_false_eq_true, forall_const, Option.some.injEq, forall_eq', reduceCtorEq,
        false_implies, and_true]
      by_cases hsmall : roundUp gransize size < 2 ^ 64
      · have hgrup : grup size = roundUp gransize size := Nat.mod_eq_of_lt hsmall
        rw [freeAt_iff hne fun k hk => (hout k hk).imp_right (by omega), and_iff_right hsmall,
          Nat.dvd_sub_iff_left hlt.le (hgrup ▸ dvd_roundUp _ _)]
      · -- a size that wraps is larger than the room
        refine iff_of_false (fun hfree => ?_) fun h => hsmall h.1
        have hsize : grup size < 2 ^ 64 := Nat.mod_lt _ (by decide)
        exact hfree.2.2 m.addr (by omega) (by omega) ⟨m, hmem, Nat.le_refl _, (ht m hmem).roomStart.1⟩
    | none =>
      have hend := ht last (mem_of_getLast? hlast)
      obtain ⟨hpos, hstop, heq, -⟩ := hend.roomStart
      have hclear := stop_le_roomStart hrev hrevt
      rw [head?_reverse, hlast, heq] at hclear
      rw [picksFree_of_pick (a := pickAfter (grup size) last) (by simp [mapsPickaddr, hlast, hroomy]), hend.pickAfter]
      simp only [reduceCtorEq, false_implies, implies_true, Option.some.injEq, forall_eq', forall_const, true_and]
      split_ifs with hsum
      · rw [freeAt_iff (by omega) fun k hk => .inl (hclear k (mem_reverse.mpr hk)),
          (Nat.dvd_add_iff_left (dvd_roundUp _ _)).symm]
        exact imp_congr_left (iff_of_true (by omega) hsum)
      · exact iff_of_true (absurd rfl) (absurd · hsum)

/-- Beneath a mapping of one granule. -/
theorem picksFree_mapped : PicksFree 65536 ⟨[newMap 131072 65536 3 anonymousFlags 0], 1, 16⟩ := by
  have hok : Ordered pagesize [newMap 131072 65536 3 anonymousFlags 0] :=
    ⟨forall_mem_singleton.mpr ⟨by decide, by decide, by decide⟩, by decide⟩
  have hgap : HighestGap (grup 65536) [newMap 131072 65536 3 anonymousFlags 0]
      (newMap 131072 65536 3 anonymousFlags 0) := by
    unfold HighestGap HasGap
    decide
  refine (picksFree_iff hok (by decide) 65536).mpr ⟨fun m hm => ?_, fun hno => absurd hgap (hno _)⟩
  rw [mem_singleton.mp hm.1]
  decide

/-- Once the first page of a mapping has another protection, the next address is not that of a granule. -/
theorem not_picksFree_mprotect : ¬ PicksFree 65536 ((Call.mprotect 65536 4096 1).track pagesize
    ((Call.mmap 65536 65536 3 anonymousFlags 0).track pagesize noMaps)) := by
  have hpick : mapsPickaddr 65536 ((Call.mprotect 65536 4096 1).track pagesize
      ((Call.mmap 65536 65536 3 anonymousFlags 0).track pagesize noMaps)) = some 135168 := by decide
  exact fun h => absurd (h _ hpick (by decide)).1 (by decide)

end CosmoRuby.Mmap
