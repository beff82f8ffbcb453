import CosmoRuby.Mmap.Entries
import Mathlib.Tactic.Ring

/-!
# The operations on the table

What `__muntrack`, `__mprotect` and `__maps_insert` do to a valid table: it stays valid, and what
it says of each address changes as the call asks.
-/

namespace CosmoRuby.Mmap

open CosmoRuby.Lib List

section

variable {ps lo hi x addr size prot : Nat} {m k : Map} {a : Attr} {l : List Map} {t : Maps}

/-! ## Ranges -/

theorem dvd_rangeEnd (h64 : ps ∣ 2 ^ 64) (haddr : ps ∣ addr) (size : Nat) :
    ps ∣ rangeEnd ps addr size :=
  (Nat.dvd_mod_iff h64).mpr (Nat.dvd_add haddr (dvd_roundUp ps size))

theorem rangeEnd_of_lt (h : addr + roundUp ps size < 2 ^ 64) :
    rangeEnd ps addr size = addr + roundUp ps size := Nat.mod_eq_of_lt h

/-! ## `__muntrack` -/

theorem maps_muntrack (hps : 0 < ps) (ht : Ordered ps t.maps) :
    (muntrack ps addr size t).maps = t.maps.flatMap (cut ps addr (rangeEnd ps addr size)) :=
  flatMap_visited hps ht fun _ => cut_of_outside

theorem length_split (lo hi : Nat) (maps : List Map) :
    (beforeRange lo maps).length + (visited lo hi maps).length + (afterRange lo hi maps).length =
      maps.length := by
  rw [← length_append, ← length_append, beforeRange_visited_afterRange]

theorem pagesOf_split (ps lo hi : Nat) (maps : List Map) :
    pagesOf ps (beforeRange lo maps) + pagesOf ps (visited lo hi maps) +
      pagesOf ps (afterRange lo hi maps) = pagesOf ps maps := by
  rw [← pagesOf_append, ← pagesOf_append, beforeRange_visited_afterRange]

theorem pagesOf_flatMap_cut (hps : 0 < ps) (hl : ∀ m ∈ l, m.Ok ps) (hlo : ps ∣ lo)
    (hhi : ps ∣ hi) : pagesOf ps l = pagesOf ps (l.flatMap (cut ps lo hi)) +
      (l.map (cutPages ps lo hi)).sum := by
  induction l with
  | nil => rfl
  | cons m l ih =>
    have hm := pagesOf_cut hps (hl m mem_cons_self) hlo hhi
    have hrest := ih fun k hk => hl k (mem_cons_of_mem _ hk)
    rw [flatMap_cons, pagesOf_append, pagesOf_cons, map_cons, sum_cons]
    omega

theorem mem_of_mem_visited {maps : List Map} (h : m ∈ visited lo hi maps) : m ∈ maps := by
  rw [← beforeRange_visited_afterRange lo hi maps]
  exact mem_append_left _ (mem_append_right _ h)

section

variable (hps : 0 < ps)
include hps

theorem valid_muntrack (h64 : ps ∣ 2 ^ 64) (haddr : ps ∣ addr) (size : Nat)
    (ht : t.Valid ps) : (muntrack ps addr size t).Valid ps := by
  have hhi := dvd_rangeEnd h64 haddr size
  refine ⟨?_, ?_, ?_⟩
  · rw [maps_muntrack hps ht.ordered]
    exact ht.ordered.flatMap fun m hm => pieces_cut hps (ht.ordered.ok m hm) haddr hhi
  · have hlen := length_split addr (rangeEnd ps addr size) t.maps
    have hcount := ht.count
    unfold muntrack
    simp only [length_append, length_flatMap]
    omega
  · have hsplit := pagesOf_split ps addr (rangeEnd ps addr size) t.maps
    have hcut := pagesOf_flatMap_cut (l := visited addr (rangeEnd ps addr size) t.maps) hps
      (fun m hm => ht.ordered.ok m (mem_of_mem_visited hm)) haddr hhi
    have hpages := ht.pages
    unfold muntrack
    simp only [pagesOf_append]
    omega

theorem denotes_muntrack (h64 : ps ∣ 2 ^ 64) (haddr : ps ∣ addr) (size : Nat)
    (ht : t.Valid ps) : Denotes ps (muntrack ps addr size t).maps x a ↔
      Denotes ps t.maps x a ∧ ¬ (addr ≤ x ∧ x < rangeEnd ps addr size) := by
  have hhi := dvd_rangeEnd h64 haddr size
  rw [maps_muntrack hps ht.ordered, denotes_flatMap]
  constructor
  · rintro ⟨m, hm, h⟩
    obtain ⟨h, hx⟩ := (denotes_cut hps (ht.ordered.ok m hm) haddr hhi).mp h
    exact ⟨⟨m, hm, h⟩, hx⟩
  · rintro ⟨⟨m, hm, h⟩, hx⟩
    exact ⟨m, hm, (denotes_cut hps (ht.ordered.ok m hm) haddr hhi).mpr ⟨h, hx⟩⟩

/-! ## `__mprotect` -/

theorem maps_mprotect (hsize : size ≠ 0) (ht : Ordered ps t.maps) : (mprotect ps addr size prot t).maps =
      t.maps.flatMap (reprotect ps addr (rangeEnd ps addr size) prot) := by
  unfold mprotect
  rw [if_neg hsize]
  exact flatMap_visited hps ht fun _ => reprotect_of_outside

theorem pagesOf_reprotect (hm : m.Ok ps) (hlo : ps ∣ lo) (hhi : ps ∣ hi) :
    pagesOf ps (reprotect ps lo hi prot m) = pageCount ps m.size := by
  have htiles := (tiles_reprotect hps hm hlo hhi prot).pages hps
  have hone := pageCount_mul hps m.size
  apply Nat.eq_of_mul_eq_mul_right hps
  unfold Map.stop at htiles
  omega

theorem pagesOf_flatMap_reprotect (hl : ∀ m ∈ l, m.Ok ps) (hlo : ps ∣ lo)
    (hhi : ps ∣ hi) : pagesOf ps (l.flatMap (reprotect ps lo hi prot)) = pagesOf ps l := by
  induction l with
  | nil => rfl
  | cons m l ih =>
    rw [flatMap_cons, pagesOf_append, pagesOf_cons,
      pagesOf_reprotect hps (hl m mem_cons_self) hlo hhi,
      ih fun k hk => hl k (mem_cons_of_mem _ hk)]

theorem valid_mprotect (h64 : ps ∣ 2 ^ 64) (haddr : ps ∣ addr) (size prot : Nat)
    (ht : t.Valid ps) : (mprotect ps addr size prot t).Valid ps := by
  by_cases hsize : size = 0
  · unfold mprotect
    rwa [if_pos hsize]
  have hhi := dvd_rangeEnd h64 haddr size
  have hmaps : (mprotect ps addr size prot t).maps = _ := maps_mprotect hps hsize ht.ordered
  refine ⟨?_, ?_, ?_⟩
  · rw [hmaps]
    refine ht.ordered.flatMap fun m hm => ?_
    have htiles := tiles_reprotect hps (ht.ordered.ok m hm) haddr hhi prot
    exact ⟨htiles.ordered hps, fun k hk => htiles.inside hps hk⟩
  · have hlen := length_split addr (rangeEnd ps addr size) t.maps
    have hcount := ht.count
    unfold mprotect
    rw [if_neg hsize]
    simp only [length_append, length_flatMap]
    omega
  · have hpages : (mprotect ps addr size prot t).pages = t.pages := by
      unfold mprotect
      rw [if_neg hsize]
    rw [hpages, hmaps, pagesOf_flatMap_reprotect hps ht.ordered.ok haddr hhi]
    exact ht.pages

theorem denotes_mprotect (h64 : ps ∣ 2 ^ 64) (haddr : ps ∣ addr)
    (hsize : size ≠ 0) (prot : Nat) (ht : t.Valid ps) :
    Denotes ps (mprotect ps addr size prot t).maps x a ↔
      ∃ b, Denotes ps t.maps x b ∧ protectAttr addr (rangeEnd ps addr size) prot x b = a := by
  have hhi := dvd_rangeEnd h64 haddr size
  rw [maps_mprotect hps hsize ht.ordered, denotes_flatMap]
  constructor
  · rintro ⟨m, hm, h⟩
    obtain ⟨hx, ha⟩ := ((tiles_reprotect hps (ht.ordered.ok m hm) haddr hhi prot).denotes hps).mp h
    exact ⟨m.attr x, ⟨m, hm, hx, rfl⟩, ha⟩
  · rintro ⟨b, ⟨m, hm, hx, rfl⟩, ha⟩
    exact ⟨m, hm,
      ((tiles_reprotect hps (ht.ordered.ok m hm) haddr hhi prot).denotes hps).mpr ⟨hx, ha⟩⟩

/-! ## `__maps_insert` -/

theorem ordered_insert (hl : Ordered ps l) (hm : m.Ok ps) (hfree : ∀ k ∈ l, Apart ps k m) :
    Ordered ps (l.takeWhile (fun k => k.addr ≤ m.addr) ++
      m :: l.dropWhile (fun k => k.addr ≤ m.addr)) := by
  set front := l.takeWhile fun k => k.addr ≤ m.addr
  set back := l.dropWhile fun k => k.addr ≤ m.addr
  have hsplit : front ++ back = l := takeWhile_append_dropWhile
  have hmpos := hm.lt_stop hps
  have hfront : ∀ k ∈ front, k.stop ps ≤ m.addr := by
    intro k hk
    have htrue := mem_takeWhile_imp hk
    have hle : k.addr ≤ m.addr := of_decide_eq_true htrue
    have hapart := hfree k ((takeWhile_sublist _).subset hk)
    unfold Apart at hapart
    omega
  have hmem : ∀ k ∈ back, k ∈ l := fun k hk => (dropWhile_sublist _).subset hk
  have hall : Ordered ps (front ++ back) := by rwa [hsplit]
  have hback := hall.append_right
  refine hall.append_left.append ⟨List.forall_mem_cons.mpr ⟨hm, hback.ok⟩, ?_⟩ ?_
  · refine List.pairwise_cons.mpr ⟨?_, hback.sorted⟩
    intro k hk
    have hlt := lt_of_mem_dropWhile hps hback hk
    have hapart := hfree k (hmem k hk)
    have hkpos := (hback.ok k hk).lt_stop hps
    unfold Apart at hapart
    omega
  · intro k hk y hy
    rcases List.mem_cons.mp hy with rfl | hy
    · exact hfront k hk
    · exact hall.before hk hy

end

theorem toList_getLast? {α : Type} (l : List α) : l.dropLast ++ l.getLast?.toList = l := by
  cases h : l.getLast? with
  | none =>
    rw [List.getLast?_eq_none_iff.mp h]
    rfl
  | some y =>
    obtain ⟨l', rfl⟩ := List.getLast?_eq_some_iff.mp h
    rw [dropLast_concat]
    rfl

theorem toList_head? {α : Type} (l : List α) : l.head?.toList ++ l.tail = l := by
  cases l <;> rfl

theorem joined_mapsInsert (m : Map) (t : Maps) : Joined ps (t.maps.takeWhile (fun k => k.addr ≤ m.addr) ++
      m :: t.maps.dropWhile (fun k => k.addr ≤ m.addr)) (mapsInsert ps m t).maps := by
  unfold mapsInsert
  dsimp only
  generalize t.maps.takeWhile (fun k => decide (k.addr ≤ m.addr)) = before
  generalize t.maps.dropWhile (fun k => decide (k.addr ≤ m.addr)) = after
  have hjoined : Joined ps _ _ := (joined_mergeNeighbours (m := m) before.getLast? after.head?).context
    before.dropLast after.tail
  rwa [← append_assoc, toList_getLast?, append_assoc, cons_append, toList_head?] at hjoined

section

variable (hps : 0 < ps) (ht : Ordered ps t.maps) (hm : m.Ok ps) (hfree : ∀ k ∈ t.maps, Apart ps k m)
include hps ht hm hfree

/-- `__maps_insert` on pages that no entry has: the entries are joined or not, and say the same. -/
theorem sameMap_mapsInsert :
    SameMap ps (t.maps.takeWhile (fun k => k.addr ≤ m.addr) ++
      m :: t.maps.dropWhile (fun k => k.addr ≤ m.addr)) (mapsInsert ps m t).maps :=
  (joined_mapsInsert m t).sameMap hps (ordered_insert hps ht hm hfree)

theorem denotes_mapsInsert : Denotes ps (mapsInsert ps m t).maps x a ↔
      Denotes ps t.maps x a ∨ (m.Holds ps x ∧ m.attr x = a) := by
  rw [(sameMap_mapsInsert hps ht hm hfree).denotes, denotes_append, denotes_cons]
  conv_rhs => rw [← takeWhile_append_dropWhile (p := fun k : Map => k.addr ≤ m.addr)
    (l := t.maps), denotes_append]
  exact or_left_comm.trans or_comm

end

theorem valid_mapsInsert (hps : 0 < ps) (ht : t.Valid ps) (hm : m.Ok ps)
    (hfree : ∀ k ∈ t.maps, Apart ps k m) : (mapsInsert ps m t).Valid ps := by
  have hsame := sameMap_mapsInsert hps ht.ordered hm hfree
  have hsplit := takeWhile_append_dropWhile (p := fun k : Map => k.addr ≤ m.addr) (l := t.maps)
  refine ⟨hsame.ordered, ?_, ?_⟩
  · have hlen := congrArg List.length hsplit
    have hcount := ht.count
    unfold mapsInsert
    simp only [length_append] at hlen ⊢
    revert hlen
    generalize t.maps.takeWhile (fun k => decide (k.addr ≤ m.addr)) = before
    generalize t.maps.dropWhile (fun k => decide (k.addr ≤ m.addr)) = after
    intro hlen
    have hbefore := congrArg List.length (toList_getLast? before)
    have hafter := congrArg List.length (toList_head? after)
    rw [length_append] at hbefore hafter
    omega
  · rw [hsame.pages, pagesOf_append, pagesOf_cons]
    have hpages := congrArg (pagesOf ps) hsplit
    rw [pagesOf_append] at hpages
    have hold := ht.pages
    show t.pages + pageCount ps m.size = _
    omega

end

end CosmoRuby.Mmap
