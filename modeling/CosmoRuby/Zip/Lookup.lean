import Mathlib
import CosmoRuby.Lib.Bytes
import CosmoRuby.Lib.Lex

/-!
# Lookup of names in an archive

The index of the archive, sorted by `__zipos_compare_names`, and the search of `__zipos_scan` in it,
which is compared with a search through all entries. A lone slash behind a name is taken off before
the search.
-/

open CosmoRuby.Lib

namespace CosmoRuby.Zip

open List

/-! ## 1. The index -/

/-- An entry of the central directory: its offset, its name and whether its mode is that of a
directory. -/
structure Entry where
  cfile : Nat
  name : Bytes
  isDir : Bool
deriving DecidableEq

def memcmp : Bytes → Bytes → Nat → Int
  | a :: x, b :: y, n + 1 => if a = b then memcmp x y n else (a.toNat : Int) - b.toNat
  | _, _, _ => 0

def compareNames (x y : Bytes) : Int :=
  let n := min x.length y.length
  if n ≠ 0 ∧ memcmp x y n ≠ 0 then memcmp x y n else (x.length : Int) - y.length

def SortedIndex (index : List Entry) : Prop :=
  index.Pairwise fun a b => compareNames a.name b.name ≤ 0

/-! ## 2. The search -/

inductive Lookup where
  | entry (e : Entry)
  | synthetic
  | missing
deriving DecidableEq

def ziposMatch (name : Bytes) (e : Entry) : Lookup :=
  if (name.length = e.name.length ∨
      name.length + 1 = e.name.length ∧ byteAt e.name name.length = 47) ∧
      e.name.take name.length = name then .entry e
  else if name.length + 1 < e.name.length ∧ byteAt e.name name.length = 47 ∧
      e.name.take name.length = name then .synthetic
  else .missing

def scanFrom (name : Bytes) : List Entry → Lookup
  | [] => .missing
  | e :: es =>
    if ziposMatch name e ≠ .missing then ziposMatch name e
    else if e.name.length < name.length ∨
        byteAt e.name (name.length - 1) ≠ byteAt name (name.length - 1) then .missing
    else scanFrom name es

def searchLoop (index : List Entry) (name : Bytes) : Nat → Nat → Nat → Nat
  | 0, l, _ => l
  | fuel + 1, l, r =>
    if l < r then
      if compareNames ((index[(l + r) / 2]?.map Entry.name).getD []) name < 0 then
        searchLoop index name fuel ((l + r) / 2 + 1) r
      else searchLoop index name fuel l ((l + r) / 2)
    else l

def stripSlash (name : Bytes) : Bytes :=
  if name.getLast? = some 47 then name.dropLast else name

/-- What is done where the binary search ended. Names that go on with a character before the slash
are followed by those in the directory, the others have them behind. -/
def scanAround (index : List Entry) (name : Bytes) (l : Nat) : Lookup :=
  match index[l]? with
  | none => .missing
  | some e =>
    if name.length < e.name.length ∧ byteAt e.name name.length ≠ 47 then
      if byteAt e.name name.length < 47 then scanFrom name (index.drop (l + 1))
      else scanFrom name (index.take l).reverse
    else ziposMatch name e

def ziposScan (index : List Entry) (path : Bytes) : Lookup :=
  let name := stripSlash path
  if name = [] then .synthetic
  else scanAround index name (searchLoop index name index.length 0 index.length)

def memrchrSlash : Bytes → Option Nat
  | [] => none
  | c :: path =>
    match memrchrSlash path with
    | some k => some (k + 1)
    | none => if c = 47 then some 0 else none

def ziposSyntheticDirectory : Nat := 0

/-- `cf != ZIPOS_SYNTHETIC_DIRECTORY && !S_ISDIR(..)`: an entry at offset 0 is taken for the mark. -/
def Lookup.notDirectory : Lookup → Bool
  | .entry e => e.cfile != ziposSyntheticDirectory && !e.isDir
  | _ => false

def fileAbove (index : List Entry) : Nat → Bytes → Bool
  | 0, _ => false
  | fuel + 1, path =>
    match memrchrSlash path with
    | none => false
    | some k => (ziposScan index (path.take k)).notDirectory || fileAbove index fuel (path.take k)

inductive FindError where
  | enotdir
  | enoent
deriving DecidableEq

def ziposFind (index : List Entry) (path : Bytes) : Except FindError Lookup :=
  if ziposScan index path = .missing then
    if fileAbove index path.length path then .error .enotdir else .error .enoent
  else if path.getLast? = some 47 ∧ (ziposScan index path).notDirectory then .error .enotdir
  else .ok (ziposScan index path)

/-! ## 3. The search through all entries -/

/-- The entry of this name, or else of this name with a slash, or else the mark of a directory if
some entry is in it. -/
def linear (index : List Entry) (name : Bytes) : Lookup :=
  match index.find? fun e => e.name = name with
  | some e => .entry e
  | none =>
    match index.find? fun e => e.name = name ++ [47] with
    | some e => .entry e
    | none => if index.any fun e => (name ++ [47]).isPrefixOf e.name then .synthetic else .missing

def Lookup.isFile : Lookup → Bool
  | .entry e => !e.isDir
  | _ => false

theorem linear_mem {index : List Entry} {name : Bytes} {e : Entry} (h : linear index name = .entry e) :
    e ∈ index := by
  unfold linear at h
  split at h <;> rename_i hfind
  · cases h
    exact mem_of_find?_eq_some hfind
  · split at h <;> rename_i hslash
    · cases h
      exact mem_of_find?_eq_some hslash
    · split_ifs at h

theorem notDirectory_linear {index : List Entry} (hzero : ∀ e ∈ index, e.cfile = 0 → e.isDir = true)
    (name : Bytes) : (linear index name).notDirectory = (linear index name).isFile := by
  cases hlinear : linear index name with
  | entry e =>
    show (e.cfile != 0 && !e.isDir) = !e.isDir
    by_cases hcfile : e.cfile = 0
    · rw [hzero e (linear_mem hlinear) hcfile]
      exact Bool.and_false _
    · rw [bne_iff_ne.mpr hcfile, Bool.true_and]
  | synthetic | missing => rfl

/-! ## 4. The order of names -/

theorem compareNames_neg_iff (x y : Bytes) : compareNames x y < 0 ↔ Before x y := by
  induction x generalizing y with
  | nil =>
    cases y with
    | nil => exact iff_of_false (by decide) (not_before_nil _)
    | cons b y =>
      refine iff_of_true ?_ trivial
      rw [compareNames, if_neg (by simp), length_nil, length_cons]
      omega
  | cons a x ih =>
    cases y with
    | nil =>
      refine iff_of_false ?_ (not_before_nil _)
      rw [compareNames, if_neg (by simp), length_nil, length_cons]
      omega
    | cons b y =>
      have hmin : min (a :: x).length (b :: y).length = min x.length y.length + 1 := by
        simp only [length_cons]
        omega
      rw [compareNames, hmin, memcmp]
      by_cases hab : a = b
      · subst hab
        have hcmp : compareNames (a :: x) (a :: y) = compareNames x y := by
          rw [compareNames, hmin, memcmp, if_pos rfl, compareNames]
          by_cases hn : min x.length y.length = 0
          · have hmem : memcmp x y 0 = 0 := by cases x <;> cases y <;> rfl
            simp [hn, hmem]
          · simp [hn]
        rw [compareNames, hmin, memcmp] at hcmp
        rw [hcmp, ih]
        exact ⟨fun h => .inr ⟨rfl, h⟩, fun h => h.elim (fun h => absurd h (Nat.lt_irrefl _)) And.right⟩
      · have hne : (a.toNat : Int) - b.toNat ≠ 0 := by
          intro h
          exact hab (UInt8.toNat_inj.1 (by omega))
        rw [if_neg hab, if_pos ⟨Nat.succ_ne_zero _, hne⟩]
        constructor
        · intro h
          exact .inl (by omega)
        · rintro (h | ⟨h, -⟩)
          · omega
          · exact absurd h hab

theorem compareNames_swap (x y : Bytes) : compareNames y x = - compareNames x y := by
  have hmem (x y : Bytes) (n : Nat) : memcmp y x n = - memcmp x y n := by
    induction n generalizing x y with
    | zero => cases x <;> cases y <;> rfl
    | succ n ih =>
      cases x with
      | nil => cases y <;> rfl
      | cons a x =>
        cases y with
        | nil => rfl
        | cons b y =>
          rw [memcmp, memcmp]
          by_cases hab : a = b
          · rw [if_pos hab, if_pos hab.symm, ih]
          · rw [if_neg hab, if_neg fun h => hab h.symm, Int.neg_sub]
  rw [compareNames, compareNames, Nat.min_comm, hmem]
  split <;> split <;> omega

theorem sorted_iff (index : List Entry) :
    SortedIndex index ↔ index.Pairwise fun a b => ¬ Before b.name a.name := by
  rw [SortedIndex]
  refine List.Pairwise.iff fun {a b} => ?_
  rw [← compareNames_neg_iff, compareNames_swap]
  omega

/-! ## 5. Names that match -/

def Matches (name z : Bytes) : Prop := z = name ∨ ∃ w, z = name ++ 47 :: w

theorem Matches.not_before {name z : Bytes} (h : Matches name z) : ¬ Before z name := by
  rcases h with rfl | ⟨w, rfl⟩
  · exact before_irrefl _
  · exact not_append_before name _

theorem take_eq_iff (name z : Bytes) : z.take name.length = name ↔ ∃ w, z = name ++ w := by
  constructor
  · intro h
    have happ := take_append_drop name.length z
    rw [h] at happ
    exact ⟨z.drop name.length, happ.symm⟩
  · rintro ⟨w, rfl⟩
    exact take_left

theorem byteAt_append_cons (name w : Bytes) (c : UInt8) :
    byteAt (name ++ c :: w) name.length = c := by
  rw [← Nat.add_zero name.length, byteAt_append_right]
  rfl

section Match

variable {name : Bytes} {e : Entry}

theorem ziposMatch_self (h : e.name = name) : ziposMatch name e = .entry e := by
  rw [ziposMatch, if_pos]
  rw [h, take_length]
  exact ⟨.inl rfl, rfl⟩

theorem ziposMatch_slash (h : e.name = name ++ [47]) : ziposMatch name e = .entry e := by
  rw [ziposMatch, if_pos]
  rw [h, take_left, byteAt_append_cons, length_append]
  exact ⟨.inr ⟨rfl, rfl⟩, rfl⟩

theorem ziposMatch_inside {a : UInt8} {w : Bytes} (h : e.name = name ++ 47 :: a :: w) :
    ziposMatch name e = .synthetic := by
  have hlen : e.name.length = name.length + (w.length + 2) := by
    rw [h, length_append, length_cons, length_cons]
  rw [ziposMatch, if_neg fun hand => by have hor := hand.1; omega, if_pos]
  refine ⟨by omega, ?_, ?_⟩
  · rw [h, byteAt_append_cons]
  · rw [h, take_left]

theorem ziposMatch_missing (h : ¬ Matches name e.name) : ziposMatch name e = .missing := by
  have hbegins (htake : e.name.take name.length = name) :
      ¬ (name.length = e.name.length ∨ byteAt e.name name.length = 47 ∧
        name.length < e.name.length) := by
    obtain ⟨w, hw⟩ := (take_eq_iff _ _).1 htake
    rintro (hlen | ⟨hslash, hlen⟩)
    · have hnil : w = [] := by
        rw [hw, length_append] at hlen
        exact List.length_eq_zero_iff.1 (by omega)
      exact h (.inl (by rw [hw, hnil, append_nil]))
    · cases w with
      | nil =>
        rw [hw, append_nil] at hlen
        exact absurd hlen (Nat.lt_irrefl _)
      | cons c w =>
        rw [hw, byteAt_append_cons] at hslash
        exact h (.inr ⟨w, by rw [hw, hslash]⟩)
  rw [ziposMatch, if_neg, if_neg]
  · rintro ⟨hlen, hslash, htake⟩
    exact hbegins htake (.inr ⟨hslash, by omega⟩)
  · rintro ⟨hlen | ⟨hlen, hslash⟩, htake⟩
    · exact hbegins htake (.inl hlen)
    · exact hbegins htake (.inr ⟨hslash, by omega⟩)

end Match

/-! ## 6. The search through all entries, piece by piece -/

section Linear

variable {name : Bytes} {e : Entry} {es : List Entry}

theorem linear_cons_of_not (h : ¬ Matches name e.name) : linear (e :: es) name = linear es name := by
  have h₁ : ¬ e.name = name := fun heq => h (.inl heq)
  have h₂ : ¬ e.name = name ++ [47] := fun heq => h (.inr ⟨[], heq⟩)
  have h₃ : (name ++ [47]).isPrefixOf e.name = false := by
    rw [← Bool.not_eq_true, isPrefixOf_iff_prefix]
    rintro ⟨w, hw⟩
    exact h (.inr ⟨w, by rw [← hw, append_assoc]; rfl⟩)
  rw [linear, linear, List.find?_cons_of_neg (by simpa using h₁),
    List.find?_cons_of_neg (by simpa using h₂), any_cons, h₃, Bool.false_or]

theorem linear_append_of_not {pre : List Entry} (h : ∀ e ∈ pre, ¬ Matches name e.name) :
    linear (pre ++ es) name = linear es name := by
  induction pre with
  | nil => rfl
  | cons e pre ih =>
    rw [cons_append, linear_cons_of_not (h e mem_cons_self),
      ih fun a ha => h a (mem_cons_of_mem e ha)]

theorem linear_missing (h : ∀ e ∈ es, ¬ Matches name e.name) : linear es name = .missing := by
  have happ : linear (es ++ []) name = _ := linear_append_of_not h
  rw [append_nil] at happ
  exact happ

theorem linear_cons_match (h : Matches name e.name) (hes : ∀ a ∈ es, ¬ Before a.name e.name) :
    linear (e :: es) name = ziposMatch name e := by
  by_cases hself : e.name = name
  · rw [ziposMatch_self hself, linear, List.find?_cons_of_pos (by simpa using hself)]
  · obtain ⟨w, hw⟩ := h.resolve_left hself
    have hbefore : Before name e.name := by
      rw [hw]
      have hstep := (before_append_left name [] (47 :: w)).2 trivial
      rw [append_nil] at hstep
      exact hstep
    have hnone {n : Bytes} (hn : Before n e.name) : (e :: es).find? (fun a => a.name = n) = none := by
      rw [List.find?_eq_none]
      intro a ha heq
      have hname : a.name = n := by simpa using heq
      rcases List.mem_cons.1 ha with rfl | ha
      · exact before_irrefl _ (hname ▸ hn)
      · exact hes a ha (hname ▸ hn)
    cases w with
    | nil => rw [ziposMatch_slash hw, linear, hnone hbefore, List.find?_cons_of_pos (by simpa using hw)]
    | cons c w =>
      have hslash : Before (name ++ [47]) e.name := by
        rw [hw]
        exact (before_append_left name [47] (47 :: c :: w)).2 (.inr ⟨rfl, trivial⟩)
      have hpre : (name ++ [47]).isPrefixOf e.name = true := by
        rw [ isPrefixOf_iff_prefix, hw]
        exact ⟨c :: w, by rw [append_assoc]; rfl⟩
      rw [ziposMatch_inside hw, linear, hnone hbefore, hnone hslash, any_cons, hpre, Bool.true_or]
      rfl

theorem no_match_after (hafter : ∀ w, Before (name ++ w) e.name)
    (hes : ∀ a ∈ es, ¬ Before a.name e.name) : ∀ a ∈ es, ¬ Matches name a.name := by
  intro a ha hmatch
  refine hes a ha ?_
  rcases hmatch with heq | ⟨w, heq⟩
  · have hstep := hafter []
    rw [append_nil] at hstep
    exact heq ▸ hstep
  · exact heq ▸ hafter (47 :: w)

end Linear

/-! ## 7. The scan to one side -/

section Scan

variable {name : Bytes} {es : List Entry}

theorem scanFrom_missing (h : ∀ e ∈ es, ¬ Matches name e.name) : scanFrom name es = .missing := by
  induction es with
  | nil => rfl
  | cons e es ih =>
    rw [scanFrom, ziposMatch_missing (h e mem_cons_self), if_neg (not_not.2 rfl)]
    split
    · rfl
    · exact ih fun a ha => h a (mem_cons_of_mem e ha)

/-- To the right of the names that begin alike, but come before the slash, the scan finds what
there is: it stops only behind them. -/
theorem scanFrom_eq_linear (hname : name ≠ [])
    (hes : es.Pairwise fun a b => ¬ Before b.name a.name) (hafter : ∀ e ∈ es, Before name e.name) :
    scanFrom name es = linear es name := by
  induction es with
  | nil => rfl
  | cons e es ih =>
    obtain ⟨hfirst, hrest⟩ := List.pairwise_cons.1 hes
    by_cases hmatch : Matches name e.name
    · have hlinear := linear_cons_match hmatch hfirst
      rw [scanFrom, if_pos, hlinear]
      rcases hmatch with heq | ⟨w, hw⟩
      · rw [ziposMatch_self heq]
        exact nofun
      · cases w with
        | nil =>
          rw [ziposMatch_slash hw]
          exact nofun
        | cons c w =>
          rw [ziposMatch_inside hw]
          exact nofun
    · rw [linear_cons_of_not hmatch, scanFrom, ziposMatch_missing hmatch, if_neg (not_not.2 rfl)]
      have hge : ¬ Before e.name name :=
        fun h => before_irrefl _ (h.trans (hafter e mem_cons_self))
      rcases begins_or_after hge with ⟨w, hw⟩ | hlast
      · -- the name begins alike, so that the scan goes on
        have hpos := List.length_pos_iff.2 hname
        rw [if_neg, ih hrest fun a ha => hafter a (mem_cons_of_mem e ha)]
        rw [hw, length_append, byteAt_append_left _ _ _ (by omega)]
        rintro (hlt | hne)
        · omega
        · exact hne rfl
      · have hnone := no_match_after hlast hfirst
        rw [linear_missing hnone, scanFrom_missing hnone, ite_self]

end Scan

/-! ## 8. The binary search -/

def Parts (index : List Entry) (name : Bytes) (l r : Nat) : Prop :=
  ∀ i e, index[i]? = some e → (i < l → Before e.name name) ∧ (r ≤ i → ¬ Before e.name name)

variable {index : List Entry}

theorem searchLoop_parts {name : Bytes}
    (hsorted : index.Pairwise fun a b => ¬ Before b.name a.name) (fuel l r : Nat)
    (hparts : Parts index name l r) (hlr : l ≤ r) (hr : r ≤ index.length) (hfuel : r - l ≤ fuel) :
    Parts index name (searchLoop index name fuel l r) (searchLoop index name fuel l r) ∧
      searchLoop index name fuel l r ≤ index.length := by
  induction fuel generalizing l r with
  | zero =>
    have heq : l = r := by omega
    subst heq
    exact ⟨hparts, hr⟩
  | succ fuel ih =>
    rw [searchLoop]
    split <;> rename_i hlt
    · have hm : (l + r) / 2 < index.length := by omega
      obtain ⟨e, he⟩ : ∃ e, index[(l + r) / 2]? = some e := ⟨_, List.getElem?_eq_getElem hm⟩
      have hord (i j : Nat) (a b : Entry) (hij : i < j) (ha : index[i]? = some a)
          (hb : index[j]? = some b) : ¬ Before b.name a.name := by
        obtain ⟨hi, rfl⟩ := List.getElem?_eq_some_iff.1 ha
        obtain ⟨hj, rfl⟩ := List.getElem?_eq_some_iff.1 hb
        exact List.pairwise_iff_getElem.1 hsorted i j hi hj hij
      rw [he, Option.map_some, Option.getD_some]
      by_cases hbefore : Before e.name name
      · rw [if_pos ((compareNames_neg_iff _ _).2 hbefore)]
        refine ih _ r ?_ (by omega) hr (by omega)
        intro i a ha
        refine ⟨fun hi => ?_, (hparts i a ha).2⟩
        rcases Nat.lt_or_eq_of_le (Nat.le_of_lt_succ hi) with hlt' | rfl
        · by_contra hnot
          exact hord i _ a e hlt' ha he (hbefore.of_not hnot)
        · rw [Option.some.inj (ha.symm.trans he)]
          exact hbefore
      · rw [if_neg fun h => hbefore ((compareNames_neg_iff _ _).1 h)]
        refine ih l _ ?_ (by omega) (by omega) (by omega)
        intro i a ha
        refine ⟨(hparts i a ha).1, fun hi => ?_⟩
        rcases Nat.lt_or_eq_of_le hi with hlt' | rfl
        · intro hnot
          exact hord _ i e a hlt' he ha (hnot.of_not hbefore)
        · rw [Option.some.inj (ha.symm.trans he)]
          exact hbefore
    · have heq : l = r := by omega
      subst heq
      exact ⟨hparts, hr⟩

/-! ## 9. The whole search -/

variable {path : Bytes}

theorem ziposScan_eq_linear (hsorted : SortedIndex index)
    (hpath : stripSlash path ≠ []) : ziposScan index path = linear index (stripSlash path) := by
  rw [sorted_iff] at hsorted
  rw [ziposScan, if_neg hpath]
  generalize stripSlash path = name at hpath ⊢
  obtain ⟨l, hl⟩ : ∃ l, searchLoop index name index.length 0 index.length = l := ⟨_, rfl⟩
  obtain ⟨hparts, hle⟩ := searchLoop_parts hsorted index.length 0 index.length
    (fun i e he => ⟨fun h => absurd h (Nat.not_lt_zero i),
      fun h => absurd (List.getElem?_eq_some_iff.1 he).1 (Nat.not_lt.2 h)⟩)
    (Nat.zero_le _) (Nat.le_refl _) (Nat.le_refl _)
  rw [hl] at hparts hle ⊢
  have hpre : ∀ e ∈ index.take l, ¬ Matches name e.name := by
    intro e he hmatch
    obtain ⟨i, hi⟩ := List.mem_iff_getElem?.1 he
    rw [List.getElem?_take] at hi
    split at hi
    · next hlt => exact hmatch.not_before ((hparts i e hi).1 hlt)
    · cases hi
  have hlinear : linear index name = linear (index.drop l) name := by
    have happ : linear (index.take l ++ index.drop l) name = _ := linear_append_of_not hpre
    rw [take_append_drop] at happ
    exact happ
  rw [hlinear, scanAround]
  cases he : index[l]? with
  | none =>
    rw [drop_eq_nil_of_le (List.getElem?_eq_none_iff.1 he)]
    rfl
  | some e =>
    obtain ⟨hlt, hget⟩ := List.getElem?_eq_some_iff.1 he
    have hge : ¬ Before e.name name := (hparts l e he).2 (Nat.le_refl l)
    have hdrop : index.drop l = e :: index.drop (l + 1) := by
      rw [drop_eq_getElem_cons hlt, hget]
    have hpair : (e :: index.drop (l + 1)).Pairwise fun a b => ¬ Before b.name a.name := by
      rw [← hdrop]
      exact hsorted.drop
    obtain ⟨hfirst, hrest⟩ := List.pairwise_cons.1 hpair
    rw [hdrop]
    dsimp only
    by_cases hmatch : Matches name e.name
    · have hside : ¬ (name.length < e.name.length ∧ byteAt e.name name.length ≠ 47) := by
        rintro ⟨hlong, hbyte⟩
        rcases hmatch with heq | ⟨w, hw⟩
        · exact Nat.lt_irrefl _ (heq ▸ hlong)
        · rw [hw, byteAt_append_cons] at hbyte
          exact hbyte rfl
      rw [if_neg hside]
      exact (linear_cons_match hmatch hfirst).symm
    rw [linear_cons_of_not hmatch, ziposMatch_missing hmatch]
    have hbefore : Before name e.name := by
      by_contra hnot
      exact hmatch (.inl (before_total hge hnot))
    have hup := scanFrom_eq_linear hpath hrest fun a ha => hbefore.of_not (hfirst a ha)
    have hdown := scanFrom_missing fun a ha => hpre a (List.mem_reverse.1 ha)
    rcases begins_or_after hge with ⟨v, hv⟩ | hafter
    · cases v with
      | nil => exact absurd (.inl (by rw [hv, append_nil])) hmatch
      | cons c v =>
        have hc : c ≠ 47 := fun hc => hmatch (.inr ⟨v, by rw [hv, hc]⟩)
        have hbyte : byteAt e.name name.length = c := by rw [hv, byteAt_append_cons]
        rw [if_pos ⟨by rw [hv, length_append, length_cons]; omega, hbyte.trans_ne hc⟩]
        split_ifs with hless
        · exact hup
        · rw [hdown]
          -- the slash would come before this name
          refine (linear_missing fun a ha hmatch => hfirst a ha ?_).symm
          rcases hmatch with heq | ⟨w, heq⟩
          · exact heq ▸ hbefore
          · rw [heq, hv]
            refine (before_append_left name _ _).2 (.inl ?_)
            rw [hbyte] at hless
            have hne : c.toNat ≠ 47 := fun h => hc (UInt8.toNat_inj.1 h)
            have hle : ¬ c.toNat < 47 := hless
            show 47 < c.toNat
            omega
    · have hnone := linear_missing (no_match_after hafter hfirst)
      split_ifs
      · exact hup
      · exact hdown.trans hnone.symm
      · exact hnone.symm

/-! ## 10. Parents -/

theorem memrchrSlash_none (h : memrchrSlash path = none) : 47 ∉ path := by
  induction path with
  | nil => exact not_mem_nil
  | cons c path ih =>
    rw [memrchrSlash] at h
    cases htail : memrchrSlash path with
    | some k =>
      rw [htail] at h
      cases h
    | none =>
      rw [htail] at h
      by_cases hc : c = 47
      · rw [if_pos hc] at h
        cases h
      · exact not_mem_cons_of_ne_of_not_mem (fun heq => hc heq.symm) (ih htail)

theorem memrchrSlash_some {k : Nat} (h : memrchrSlash path = some k) :
    ∃ r, path = path.take k ++ 47 :: r ∧ 47 ∉ r ∧ k < path.length := by
  induction path generalizing k with
  | nil => cases h
  | cons c path ih =>
    rw [memrchrSlash] at h
    cases htail : memrchrSlash path with
    | some j =>
      rw [htail] at h
      obtain ⟨r, hr, hnone, hlt⟩ := ih htail
      rw [← Option.some.inj h]
      exact ⟨r, by rw [take_succ_cons, cons_append, ← hr], hnone, Nat.succ_lt_succ hlt⟩
    | none =>
      rw [htail] at h
      by_cases hc : c = 47
      · rw [if_pos hc] at h
        rw [← Option.some.inj h, hc]
        exact ⟨path, rfl, memrchrSlash_none htail, Nat.succ_pos _⟩
      · rw [if_neg hc] at h
        cases h

theorem fileAbove_iff (index : List Entry) (fuel : Nat) (path : Bytes) (hfuel : path.length ≤ fuel) :
    fileAbove index fuel path = true ↔
      ∃ q r, path = q ++ 47 :: r ∧ (ziposScan index q).notDirectory = true := by
  induction fuel generalizing path with
  | zero =>
    have hnil : path = [] := List.length_eq_zero_iff.1 (by omega)
    refine iff_of_false Bool.false_ne_true ?_
    rintro ⟨q, r, hpath, -⟩
    rw [hnil] at hpath
    exact absurd hpath.symm (by simp)
  | succ fuel ih =>
    rw [fileAbove]
    cases hslash : memrchrSlash path with
    | none =>
      refine iff_of_false Bool.false_ne_true ?_
      rintro ⟨q, r, hpath, -⟩
      exact memrchrSlash_none hslash (by rw [hpath]; exact mem_append_right q mem_cons_self)
    | some k =>
      obtain ⟨r, hr, hnone, hlt⟩ := memrchrSlash_some hslash
      dsimp only
      rw [Bool.or_eq_true, ih (path.take k) (by rw [length_take]; omega)]
      constructor
      · rintro (hfile | ⟨q, s, hq, hfile⟩)
        · exact ⟨path.take k, r, hr, hfile⟩
        · exact ⟨q, s ++ 47 :: r, by rw [← cons_append, ← append_assoc, ← hq, ← hr], hfile⟩
      · rintro ⟨q, s, hq, hfile⟩
        -- the slash behind `q` is the last one or an earlier one
        rw [hr] at hq
        rcases List.append_eq_append_iff.1 hq with ⟨u, hu, hs⟩ | ⟨u, hu, hs⟩
        · cases u with
          | nil =>
            rw [append_nil] at hu
            exact .inl (hu ▸ hfile)
          | cons c u =>
            rw [cons_append] at hs
            have hmem : 47 ∈ r := by
              rw [(List.cons.inj hs).2]
              exact mem_append_right u mem_cons_self
            exact absurd hmem hnone
        · cases u with
          | nil =>
            rw [append_nil] at hu
            exact .inl (hu ▸ hfile)
          | cons c u =>
            rw [cons_append] at hs
            refine .inr ⟨q, u, ?_, hfile⟩
            rw [hu, (List.cons.inj hs).1]

/-- What `__zipos_normpath` returns for a path below the root: no empty component. -/
structure Normalized (path : Bytes) : Prop where
  nonempty : path ≠ []
  relative : path.head? ≠ some 47
  single : path.IsChain fun a b => ¬ (a = 47 ∧ b = 47)

theorem Normalized.of_append {q r : Bytes} (h : Normalized (q ++ 47 :: r)) :
    Normalized q ∧ q.getLast? ≠ some 47 := by
  have hq : q ≠ [] := by
    rintro rfl
    exact h.relative rfl
  obtain ⟨hchain, -, hjoint⟩ := List.isChain_append.1 h.single
  refine ⟨⟨hq, ?_, hchain⟩, fun hlast => ?_⟩
  · have hhead := h.relative
    rw [List.head?_append_of_ne_nil _ hq] at hhead
    exact hhead
  · exact hjoint 47 hlast 47 rfl ⟨rfl, rfl⟩

theorem stripSlash_eq (h : path.getLast? ≠ some 47) : stripSlash path = path :=
  if_neg h

theorem stripSlash_slash (name : Bytes) : stripSlash (name ++ [47]) = name := by
  rw [stripSlash, List.getLast?_concat, if_pos rfl, dropLast_concat]

theorem Normalized.strip (h : Normalized path) :
    Normalized (stripSlash path) ∧ (stripSlash path).getLast? ≠ some 47 := by
  by_cases hlast : path.getLast? = some 47
  · obtain ⟨name, rfl⟩ := List.getLast?_eq_some_iff.1 hlast
    rw [stripSlash_slash]
    exact h.of_append
  · rw [stripSlash_eq hlast]
    exact ⟨h, hlast⟩

def FileAbove (index : List Entry) (name : Bytes) : Prop :=
  ∃ q r, r ≠ [] ∧ name = q ++ 47 :: r ∧ (linear index q).isFile = true

theorem fileAbove_iff_parent (hsorted : SortedIndex index)
    (hzero : ∀ e ∈ index, e.cfile = 0 → e.isDir = true) (hpath : Normalized path)
    (hmissing : linear index (stripSlash path) = .missing) :
    fileAbove index path.length path = true ↔ FileAbove index (stripSlash path) := by
  rw [fileAbove_iff _ _ _ (Nat.le_refl _)]
  have hscan {q r : Bytes} (hq : path = q ++ 47 :: r) :
      (ziposScan index q).notDirectory = (linear index q).isFile := by
    obtain ⟨hnorm, hlast⟩ := (hq ▸ hpath).of_append
    have hstrip := stripSlash_eq hlast
    rw [ziposScan_eq_linear hsorted (by rw [hstrip]; exact hnorm.nonempty), hstrip,
      notDirectory_linear hzero]
  by_cases hlast : path.getLast? = some 47
  · obtain ⟨name, rfl⟩ := List.getLast?_eq_some_iff.1 hlast
    rw [stripSlash_slash] at hmissing ⊢
    constructor
    · rintro ⟨q, r, hq, hfile⟩
      rw [hscan hq] at hfile
      rcases eq_nil_or_concat r with rfl | ⟨r', c, rfl⟩
      · have heq := append_inj_left' hq rfl
        rw [← heq, hmissing] at hfile
        exact absurd hfile Bool.false_ne_true
      · have hsplit : name ++ [47] = q ++ 47 :: r' ++ [c] := by
          rw [hq, append_assoc, concat_eq_append]
          rfl
        have heq := append_inj_left' hsplit rfl
        refine ⟨q, r', ?_, heq, hfile⟩
        rintro rfl
        obtain ⟨-, hlast'⟩ := hpath.of_append
        rw [heq, List.getLast?_concat] at hlast'
        exact hlast' rfl
    · rintro ⟨q, r, -, hname, hfile⟩
      have hq : name ++ [47] = q ++ 47 :: (r ++ [47]) := by rw [hname, append_assoc]; rfl
      exact ⟨q, r ++ [47], hq, by rw [hscan hq]; exact hfile⟩
  · rw [stripSlash_eq hlast]
    constructor
    · rintro ⟨q, r, hq, hfile⟩
      refine ⟨q, r, ?_, hq, by rw [← hscan hq]; exact hfile⟩
      rintro rfl
      rw [hq, List.getLast?_concat] at hlast
      exact hlast rfl
    · rintro ⟨q, r, -, hq, hfile⟩
      exact ⟨q, r, hq, by rw [hscan hq]; exact hfile⟩

/-! ## 11. The lookup -/

/-- For every sorted index without a file at offset 0 and every normalized name, the search is the one
through all entries, and the errors of `__zipos_find` are those of a file system. -/
theorem zipos_lookup (index : List Entry) (path : Bytes) (hsorted : SortedIndex index)
    (hzero : ∀ e ∈ index, e.cfile = 0 → e.isDir = true) (hpath : Normalized path) :
    ziposScan index path = linear index (stripSlash path) ∧
      (ziposFind index path = .error .enotdir ↔
        path.getLast? = some 47 ∧ (linear index (stripSlash path)).isFile = true ∨
          linear index (stripSlash path) = .missing ∧ FileAbove index (stripSlash path)) ∧
      (ziposFind index path = .error .enoent ↔
        linear index (stripSlash path) = .missing ∧ ¬ FileAbove index (stripSlash path)) := by
  have hscan := ziposScan_eq_linear hsorted hpath.strip.1.nonempty
  refine ⟨hscan, ?_⟩
  rw [ziposFind, hscan, notDirectory_linear hzero]
  by_cases hmissing : linear index (stripSlash path) = .missing
  · have habove := fileAbove_iff_parent hsorted hzero hpath hmissing
    rw [if_pos hmissing, hmissing]
    by_cases hfile : FileAbove index (stripSlash path)
    · rw [if_pos (habove.2 hfile)]
      exact ⟨iff_of_true rfl (.inr ⟨rfl, hfile⟩), iff_of_false nofun fun h => h.2 hfile⟩
    · rw [if_neg fun h => hfile (habove.1 h)]
      refine ⟨iff_of_false nofun ?_, iff_of_true rfl ⟨rfl, hfile⟩⟩
      rintro (⟨-, h⟩ | ⟨-, h⟩)
      · exact Bool.false_ne_true h
      · exact hfile h
  · rw [if_neg hmissing]
    split_ifs with hslash
    · exact ⟨iff_of_true rfl (.inl hslash), iff_of_false nofun fun h => hmissing h.1⟩
    · exact ⟨iff_of_false nofun fun h => h.elim hslash fun h => hmissing h.1,
        iff_of_false nofun fun h => hmissing h.1⟩

/-- The file `f/x` behind the name `f-`. -/
def nested : List Entry := [⟨64, [102, 45], false⟩, ⟨128, [102, 47, 120], false⟩]

theorem zipos_lookup_directory :
    ziposScan nested [102, 47, 120, 47] = .entry ⟨128, [102, 47, 120], false⟩ ∧
      ziposFind nested [102, 47, 120, 47] = .error .enotdir ∧
      ziposFind nested [102, 47, 120, 47] ≠ .error .enoent := by
  have h := zipos_lookup nested [102, 47, 120, 47] (by simp [nested, SortedIndex, compareNames, memcmp])
    (by decide) ⟨by decide, by decide, by decide⟩
  exact ⟨h.1.trans (by decide), h.2.1.mpr (.inl (by decide)),
    fun hno => absurd (h.2.2.mp hno).1 (by decide)⟩

def atZero : List Entry := [⟨0, [102], false⟩]

/-- The file `f` at offset 0, with a slash. -/
theorem ziposFind_offset_zero :
    SortedIndex atZero ∧ Normalized [102, 47] ∧
      ziposFind atZero [102, 47] = .ok (.entry ⟨0, [102], false⟩) ∧
      ¬ (ziposFind atZero [102, 47] = .error .enotdir ↔
        [102, 47].getLast? = some 47 ∧ (linear atZero (stripSlash [102, 47])).isFile = true ∨
          linear atZero (stripSlash [102, 47]) = .missing ∧ FileAbove atZero (stripSlash [102, 47])) := by
  refine ⟨pairwise_singleton _ _, ⟨by decide, by decide, by decide⟩, by decide, fun h => ?_⟩
  exact absurd (h.mpr (.inl (by decide))) (by decide)

end CosmoRuby.Zip