import Mathlib
import Tack.Lib.Float64

/-!
# Canonical JSON values

Two JSON texts hold the same value when they agree after their numbers are read as binary64, the last
of several members of one name is kept and members are sorted by name.

## Main definitions

* `Lib.Json.lastMember` — the member of a name that counts.
* `Lib.Json.sortMembers` — the members that count, by ascending name.
* `Lib.Json.canonical` — the canonical form of a value; `none` when a number overflows.

## Main results

* `Lib.Json.sortMembers_eq_iff` — sorted members agree when every name has the same member.
* `Lib.Json.canonical_obj_eq_iff` — so do canonical objects.
-/

namespace Tack.Lib.Json

/-! ### Members -/

section Members

variable {α : Type*}

/-- The last member of a name. -/
def lastMember (name : String) : List (String × α) → Option α
  | [] => none
  | (n, v) :: ms =>
    match lastMember name ms with
    | some w => some w
    | none => if n = name then some v else none

/-- Puts a member into a list that ascends by name, in the place of one with its name. -/
def insertMember (name : String) (v : α) : List (String × α) → List (String × α)
  | [] => [(name, v)]
  | (n, w) :: ms =>
    if name < n then (name, v) :: (n, w) :: ms
    else if name = n then (name, v) :: ms
    else (n, w) :: insertMember name v ms

/-- The last member of each name, by ascending name. -/
def sortMembers (ms : List (String × α)) : List (String × α) :=
  ms.foldl (fun sorted m => insertMember m.1 m.2 sorted) []

/-- The names ascend. -/
def Ascending (ms : List (String × α)) : Prop := ms.Pairwise fun m m' => m.1 < m'.1

theorem lastMember_append (name : String) (ms ms' : List (String × α)) :
    lastMember name (ms ++ ms') = (lastMember name ms').or (lastMember name ms) := by
  induction ms with
  | nil => cases h : lastMember name ms' <;> simp [lastMember, h]
  | cons m ms ih =>
    obtain ⟨n, v⟩ := m
    rw [List.cons_append, lastMember, lastMember, ih]
    cases lastMember name ms' with
    | some w => rfl
    | none => rfl

variable {name : String} {ms : List (String × α)} {v : α}

theorem lastMember_eq_none (h : ∀ m ∈ ms, m.1 ≠ name) : lastMember name ms = none := by
  induction ms with
  | nil => rfl
  | cons m ms ih =>
    obtain ⟨n, v⟩ := m
    rw [lastMember, ih fun m hm => h m (List.mem_cons_of_mem _ hm)]
    exact if_neg (h (n, v) List.mem_cons_self)

theorem mem_insertMember {m : String × α} (h : m ∈ insertMember name v ms) : m = (name, v) ∨ m ∈ ms := by
  induction ms with
  | nil => exact .inl (List.mem_singleton.mp h)
  | cons m' ms ih =>
    obtain ⟨n, w⟩ := m'
    rw [insertMember] at h
    split_ifs at h
    · exact List.mem_cons.mp h
    · exact (List.mem_cons.mp h).imp_right (List.mem_cons_of_mem _)
    · rcases List.mem_cons.mp h with rfl | h
      · exact .inr List.mem_cons_self
      · exact (ih h).imp_right (List.mem_cons_of_mem _)

theorem ascending_insertMember (name : String) (v : α) (h : Ascending ms) : Ascending (insertMember name v ms) := by
  induction ms with
  | nil => exact List.pairwise_singleton _ _
  | cons m ms ih =>
    obtain ⟨n, w⟩ := m
    obtain ⟨hhead, htail⟩ := List.pairwise_cons.mp h
    rw [insertMember]
    split_ifs with hlt heq
    · refine List.pairwise_cons.mpr ⟨fun m hm => ?_, h⟩
      rcases List.mem_cons.mp hm with rfl | hm
      · exact hlt
      · exact hlt.trans (hhead m hm)
    · exact List.pairwise_cons.mpr ⟨fun m hm => heq ▸ hhead m hm, htail⟩
    · refine List.pairwise_cons.mpr ⟨fun m hm => ?_, ih htail⟩
      rcases mem_insertMember hm with rfl | hm
      · exact lt_of_le_of_ne (not_lt.mp hlt) (Ne.symm heq)
      · exact hhead m hm

theorem lastMember_insertMember (h : Ascending ms) (name' : String) : lastMember name' (insertMember name v ms) =
      if name = name' then some v else lastMember name' ms := by
  have hgt : ∀ {n : String} {ms : List (String × α)}, (∀ m ∈ ms, n < m.1) →
      lastMember n ms = none := fun hms => lastMember_eq_none fun m hm => (hms m hm).ne'
  induction ms with
  | nil => rfl
  | cons m ms ih =>
    obtain ⟨n, w⟩ := m
    obtain ⟨hhead, htail⟩ := List.pairwise_cons.mp h
    rw [insertMember]
    by_cases hlt : name < n
    · rw [if_pos hlt, lastMember]
      by_cases hname : name = name'
      · subst hname
        rw [hgt fun m hm => ?_, if_pos rfl]
        rcases List.mem_cons.mp hm with rfl | hm
        · exact hlt
        · exact hlt.trans (hhead m hm)
      · rw [if_neg hname, if_neg hname]
        cases lastMember name' ((n, w) :: ms) <;> rfl
    · rw [if_neg hlt]
      by_cases heq : name = n
      · subst heq
        rw [if_pos rfl, lastMember]
        by_cases hname : name = name'
        · subst hname
          rw [hgt hhead, if_pos rfl]
          exact (if_pos rfl).symm
        · rw [if_neg hname, if_neg hname, lastMember, if_neg hname]
      · rw [if_neg heq, lastMember, ih htail]
        by_cases hname : name = name'
        · rw [if_pos hname, if_pos hname]
        · rw [if_neg hname, if_neg hname, lastMember]

theorem sortMembers_spec (ms : List (String × α)) : Ascending (sortMembers ms) ∧
    ∀ name, lastMember name (sortMembers ms) = lastMember name ms := by
  induction ms using List.reverseRecOn with
  | nil => exact ⟨List.Pairwise.nil, fun _ => rfl⟩
  | append_singleton ms m ih =>
    obtain ⟨n, v⟩ := m
    rw [sortMembers, List.foldl_append]
    change Ascending (insertMember n v (sortMembers ms)) ∧ _
    refine ⟨ascending_insertMember n v ih.1, fun name => ?_⟩
    change lastMember name (insertMember n v (sortMembers ms)) = _
    rw [lastMember_insertMember ih.1, lastMember_append, ih.2 name]
    simp only [lastMember]
    split_ifs <;> rfl

/-- Ascending members are given by the member of each name. -/
theorem Ascending.ext {ms' : List (String × α)} (h : Ascending ms) (h' : Ascending ms')
    (heq : ∀ name, lastMember name ms = lastMember name ms') : ms = ms' := by
  have hnone : ∀ {n : String} {ms : List (String × α)}, (∀ m ∈ ms, n < m.1) →
      lastMember n ms = none := fun hms => lastMember_eq_none fun m hm => (hms m hm).ne'
  induction ms generalizing ms' with
  | nil =>
    cases ms' with
    | nil => rfl
    | cons m' ms' =>
      have h0 := heq m'.1
      rw [lastMember, lastMember, hnone (List.pairwise_cons.mp h').1] at h0
      simp at h0
  | cons m ms ih =>
    obtain ⟨n, v⟩ := m
    obtain ⟨hhead, htail⟩ := List.pairwise_cons.mp h
    cases ms' with
    | nil =>
      have h0 := heq n
      rw [lastMember, lastMember, hnone hhead] at h0
      simp at h0
    | cons m' ms' =>
      obtain ⟨n', v'⟩ := m'
      obtain ⟨hhead', htail'⟩ := List.pairwise_cons.mp h'
      -- the least names agree, since each is missing above the other
      have hname : n = n' := by
        rcases lt_trichotomy n n' with hlt | heq' | hgt
        · have h0 := heq n
          rw [lastMember, hnone hhead, hnone] at h0
          · simp at h0
          · intro m hm
            rcases List.mem_cons.mp hm with rfl | hm
            · exact hlt
            · exact hlt.trans (hhead' m hm)
        · exact heq'
        · have h0 := heq n'
          rw [hnone, lastMember, hnone hhead'] at h0
          · simp at h0
          · intro m hm
            rcases List.mem_cons.mp hm with rfl | hm
            · exact hgt
            · exact hgt.trans (hhead m hm)
      subst hname
      have hv : v = v' := by
        have h0 := heq n
        rw [lastMember, lastMember, hnone hhead, hnone hhead'] at h0
        simpa using h0
      subst hv
      rw [ih htail htail' fun name => ?_]
      by_cases hn : n = name
      · subst hn
        rw [hnone hhead, hnone hhead']
      · have h0 := heq name
        simp only [lastMember, if_neg hn] at h0
        cases hm : lastMember name ms <;> cases hm' : lastMember name ms' <;> simp_all

theorem mem_sortMembers {m : String × α} (h : m ∈ sortMembers ms) :
    m ∈ ms := by
  induction ms using List.reverseRecOn with
  | nil => exact h
  | append_singleton ms m' ih =>
    rw [sortMembers, List.foldl_append] at h
    rcases mem_insertMember h with rfl | h
    · exact List.mem_append_right _ (List.mem_singleton_self _)
    · exact List.mem_append_left _ (ih h)

theorem mem_of_lastMember (h : lastMember name ms = some v) : (name, v) ∈ ms := by
  induction ms with
  | nil => cases h
  | cons m ms ih =>
    obtain ⟨n, w⟩ := m
    rw [lastMember] at h
    cases hms : lastMember name ms with
    | some w' =>
      rw [hms] at h
      exact List.mem_cons_of_mem _ (ih (hms.trans h))
    | none =>
      rw [hms] at h
      simp only [Option.ite_none_right_eq_some, Option.some.injEq] at h
      rw [h.1, h.2]
      exact List.mem_cons_self

/-- The only member of a name counts. -/
theorem lastMember_of_nodup (h : (ms.map Prod.fst).Nodup) (hm : (name, v) ∈ ms) : lastMember name ms = some v := by
  induction ms with
  | nil => exact absurd hm List.not_mem_nil
  | cons m ms ih =>
    obtain ⟨n, w⟩ := m
    obtain ⟨hn, hnodup⟩ := List.nodup_cons.mp h
    rw [lastMember]
    rcases List.mem_cons.mp hm with heq | hm
    · cases heq
      rw [lastMember_eq_none fun m hm hname => hn (List.mem_map.mpr ⟨m, hm, hname⟩)]
      exact if_pos rfl
    · rw [ih hnodup hm]

theorem sortMembers_eq_iff {ms' : List (String × α)} : sortMembers ms = sortMembers ms' ↔
    ∀ name, lastMember name ms = lastMember name ms' := by
  obtain ⟨hsorted, hlast⟩ := sortMembers_spec ms
  obtain ⟨hsorted', hlast'⟩ := sortMembers_spec ms'
  constructor
  · intro h name
    rw [← hlast, ← hlast', h]
  · intro h
    exact hsorted.ext hsorted' fun name => by rw [hlast, hlast', h]

end Members

/-! ### Canonical values -/

mutual

/-- The canonical form of a value. -/
def canonical : Json → Option Json
  | null => some null
  | bool b => some (bool b)
  | num n => n.toFloat.map fun x => num x.toNumLit
  | str s => some (str s)
  | arr items => (canonicalItems items).map arr
  | obj members => (canonicalMembers members).map fun ms => obj (sortMembers ms)

def canonicalItems : List Json → Option (List Json)
  | [] => some []
  | j :: js => (canonical j).bind fun c => (canonicalItems js).map fun cs => c :: cs

def canonicalMembers : List (String × Json) → Option (List (String × Json))
  | [] => some []
  | (name, j) :: ms =>
    (canonical j).bind fun c => (canonicalMembers ms).map fun cs => (name, c) :: cs

end

theorem canonicalMembers_append (ms ms' : List (String × Json)) : canonicalMembers (ms ++ ms') =
    (canonicalMembers ms).bind fun cs => (canonicalMembers ms').map fun cs' => cs ++ cs' := by
  induction ms with
  | nil => simp [canonicalMembers]
  | cons m ms ih =>
    obtain ⟨name, j⟩ := m
    rw [List.cons_append, canonicalMembers, canonicalMembers, ih]
    cases canonical j with
    | none => rfl
    | some c =>
      cases canonicalMembers ms with
      | none => rfl
      | some cs => cases canonicalMembers ms' <;> rfl

variable {ms : List (String × Json)} {c j : Json} {n k : ℕ}

/-- A part of the members of a canonical object is one too. -/
theorem canonical_obj_of_append {ms' : List (String × Json)}
    (h : canonical (obj (ms ++ ms')) = some c) : ∃ c', canonical (obj ms) = some c' := by
  rw [canonical, canonicalMembers_append] at h
  obtain ⟨cs, hcs, -⟩ := Option.map_eq_some_iff.mp h
  obtain ⟨cs, hcs, -⟩ := Option.bind_eq_some_iff.mp hcs
  exact ⟨obj (sortMembers cs), by rw [canonical, hcs, Option.map_some]⟩

/-- The members that count are those of the canonical members. -/
theorem lastMember_canonicalMembers {cs : List (String × Json)} (h : canonicalMembers ms = some cs) (name : String) :
    (lastMember name ms).map canonical = (lastMember name cs).map some := by
  induction ms generalizing cs with
  | nil =>
    cases h
    rfl
  | cons m ms ih =>
    obtain ⟨n, j⟩ := m
    rw [canonicalMembers] at h
    obtain ⟨c, hc, hrest⟩ := Option.bind_eq_some_iff.mp h
    obtain ⟨cs', hcs', rfl⟩ := Option.map_eq_some_iff.mp hrest
    have hlast := ih hcs'
    rw [lastMember, lastMember]
    cases hms : lastMember name ms with
    | none =>
      rw [hms, Option.map_none, eq_comm, Option.map_eq_none_iff] at hlast
      rw [hlast]
      split_ifs
      · exact congrArg some hc
      · rfl
    | some j' =>
      rw [hms, Option.map_some, eq_comm, Option.map_eq_some_iff] at hlast
      obtain ⟨w, hw, hcanon⟩ := hlast
      rw [hw]
      exact congrArg some hcanon.symm

/-- **Canonical objects agree when the members of each name do.** -/
theorem canonical_obj_eq_iff {ms' : List (String × Json)} {c' : Json}
    (h : canonical (obj ms) = some c) (h' : canonical (obj ms') = some c') : c = c' ↔
      ∀ name, (lastMember name ms).map canonical = (lastMember name ms').map canonical := by
  rw [canonical] at h h'
  obtain ⟨cs, hcs, rfl⟩ := Option.map_eq_some_iff.mp h
  obtain ⟨cs', hcs', rfl⟩ := Option.map_eq_some_iff.mp h'
  rw [obj.injEq, sortMembers_eq_iff]
  refine forall_congr' fun name => ?_
  rw [lastMember_canonicalMembers hcs, lastMember_canonicalMembers hcs']
  exact (Option.map_injective (Option.some_injective _)).eq_iff.symm

theorem map_fst_canonicalMembers {cs : List (String × Json)} (h : canonicalMembers ms = some cs) :
    cs.map Prod.fst = ms.map Prod.fst := by
  induction ms generalizing cs with
  | nil =>
    cases h
    rfl
  | cons m ms ih =>
    obtain ⟨n, j⟩ := m
    rw [canonicalMembers] at h
    obtain ⟨c, -, hrest⟩ := Option.bind_eq_some_iff.mp h
    obtain ⟨cs', hcs', rfl⟩ := Option.map_eq_some_iff.mp hrest
    rw [List.map_cons, List.map_cons, ih hcs']

/-- The member with the least name comes first. -/
theorem canonical_obj_least {name : String} (h : canonical (obj ms) = some c) (hj : lastMember name ms = some j)
    (hleast : ∀ n ∈ ms.map Prod.fst, name ≤ n) : ∃ v rest, c = obj ((name, v) :: rest) := by
  rw [canonical] at h
  obtain ⟨cs, hcs, rfl⟩ := Option.map_eq_some_iff.mp h
  obtain ⟨hsorted, hlast⟩ := sortMembers_spec cs
  have hmember := lastMember_canonicalMembers hcs name
  rw [hj, Option.map_some, eq_comm, Option.map_eq_some_iff] at hmember
  obtain ⟨w, hw, -⟩ := hmember
  have hmem : (name, w) ∈ sortMembers cs := mem_of_lastMember ((hlast name).trans hw)
  cases hs : sortMembers cs with
  | nil =>
    rw [hs] at hmem
    exact absurd hmem List.not_mem_nil
  | cons m rest =>
    have hm : m ∈ cs := mem_sortMembers (hs ▸ List.mem_cons_self)
    have hle : name ≤ m.1 :=
      hleast m.1 (map_fst_canonicalMembers hcs ▸ List.mem_map_of_mem hm)
    rw [hs] at hmem hsorted
    rcases List.mem_cons.mp hmem with rfl | hmem
    · exact ⟨w, rest, rfl⟩
    · exact absurd ((List.pairwise_cons.mp hsorted).1 _ hmem) (not_lt.mpr hle)

/-- The canonical form of an object has canonical members. -/
theorem canonical_lastMember (h : canonical (obj ms) = some c) {name : String}
    (hj : lastMember name ms = some j) : ∃ c', canonical j = some c' := by
  rw [canonical] at h
  obtain ⟨cs, hcs, -⟩ := Option.map_eq_some_iff.mp h
  have hlast := lastMember_canonicalMembers hcs name
  rw [hj, Option.map_some, eq_comm, Option.map_eq_some_iff] at hlast
  obtain ⟨w, -, hw⟩ := hlast
  exact ⟨w, hw.symm⟩

/-! ### Canonical scalars -/

/-- The canonical form of an integer determines the number it reads as. -/
theorem toFloat_ofInt_of_canonical {a b : ℤ}
    (ha : canonical (num (.ofInt a)) = some c) (hb : canonical (num (.ofInt b)) = some c) :
    (NumLit.ofInt a).toFloat = (NumLit.ofInt b).toFloat := by
  rw [canonical] at ha hb
  obtain ⟨x, hx, hxc⟩ := Option.map_eq_some_iff.mp ha
  obtain ⟨y, hy, hyc⟩ := Option.map_eq_some_iff.mp hb
  have hlit : x.toNumLit = y.toNumLit := by
    rw [← hyc, num.injEq] at hxc
    exact hxc
  rw [hx, hy, ← Float64.toFloat_toNumLit x, hlit, Float64.toFloat_toNumLit]

/-! ### The length of canonical texts -/

/-- The value has a canonical form whose text has at most `n` characters. -/
def Small (n : ℕ) (j : Json) : Prop := ∃ c, canonical j = some c ∧ (render c).length ≤ n

theorem Small.mono {m : ℕ} (h : Small m j) (hmn : m ≤ n) : Small n j := by
  obtain ⟨c, hc, hlen⟩ := h
  exact ⟨c, hc, hlen.trans hmn⟩

theorem length_escapeChar_le (c : Char) : (escapeChar c).length ≤ 6 := by
  unfold escapeChar
  split_ifs <;> simp [hexDigits4]

theorem length_quote_le (s : List Char) : (quote s).length ≤ 6 * s.length + 2 := by
  have h : (s.flatMap escapeChar).length ≤ 6 * s.length := by
    induction s with
    | nil => exact le_rfl
    | cons c s ih =>
      rw [List.flatMap_cons, List.length_append, List.length_cons]
      have := length_escapeChar_le c
      omega
  simp only [quote, List.length_cons, List.length_append, List.length_nil]
  omega

theorem small_null : Small 4 null := ⟨null, rfl, by decide⟩

theorem small_str {s : String} (h : s.toList.length ≤ k) : Small (6 * k + 2) (str s) :=
  ⟨str s, rfl, le_trans (length_quote_le _) (by omega)⟩

theorem small_int {n : ℤ} (hn : n.natAbs ≤ 2 ^ 64)
    (h : (magnitudeText (nearestRank n.natAbs)).length ≤ k) : Small (k + 1) (num (.ofInt n)) := by
  obtain ⟨x, hx⟩ := exists_toFloat_ofInt hn
  refine ⟨num x.toNumLit, by rw [canonical, hx, Option.map_some], ?_⟩
  rw [toFloat_ofInt, Float64.ofValue_eq_some] at hx
  rw [← hx.2] at h
  rw [render, Float64.toNumLit]
  dsimp only
  split
  · rw [List.length_cons]
    omega
  · omega

/-- An integer in the exact range is small. -/
theorem small_exactInt {n : ℤ} (hn : n.natAbs ≤ 2 ^ 53) : Small 4001 (num (.ofInt n)) :=
  small_int (le_trans hn (by norm_num)) (length_magnitudeText_le hn)

/-- The members of an object, when each has a name of `k` and a text of `n` characters at most. -/
def MembersWithin (k n : ℕ) (ms : List (String × Json)) : Prop :=
  ∀ m ∈ ms, m.1.toList.length ≤ k ∧ (render m.2).length ≤ n

theorem length_renderMembers_le (h : MembersWithin k n ms) :
    (renderMembers ms).length ≤ ms.length * (6 * k + n + 4) := by
  induction ms with
  | nil => exact Nat.zero_le _
  | cons m ms ih =>
    obtain ⟨name, j⟩ := m
    obtain ⟨hname, hj⟩ := h (name, j) List.mem_cons_self
    have hquote := length_quote_le name.toList
    have hrest := ih fun m hm => h m (List.mem_cons_of_mem _ hm)
    simp only at hname hj
    rw [List.length_cons, Nat.succ_mul]
    cases ms with
    | nil =>
      simp only [renderMembers, List.length_append, List.length_cons]
      omega
    | cons m ms =>
      simp only [renderMembers, List.length_append, List.length_cons] at hrest ⊢
      omega

theorem length_insertMember_le {α : Type*} (name : String) (v : α) (ms : List (String × α)) :
    (insertMember name v ms).length ≤ ms.length + 1 := by
  induction ms with
  | nil => exact le_rfl
  | cons m ms ih =>
    obtain ⟨n, w⟩ := m
    rw [insertMember]
    split_ifs <;> simp only [List.length_cons] <;> omega

theorem length_sortMembers_le {α : Type*} (ms : List (String × α)) :
    (sortMembers ms).length ≤ ms.length := by
  induction ms using List.reverseRecOn with
  | nil => exact le_rfl
  | append_singleton ms m ih =>
    rw [sortMembers, List.foldl_append, List.length_append]
    exact le_trans (length_insertMember_le _ _ _) (Nat.add_le_add_right ih 1)

/-- The canonical members of small members. -/
theorem exists_canonicalMembers (h : ∀ m ∈ ms, m.1.toList.length ≤ k ∧ Small n m.2) :
    ∃ cs, canonicalMembers ms = some cs ∧ cs.length = ms.length ∧ MembersWithin k n cs := by
  induction ms with
  | nil => exact ⟨[], rfl, rfl, fun m hm => absurd hm List.not_mem_nil⟩
  | cons m ms ih =>
    obtain ⟨name, j⟩ := m
    obtain ⟨hname, c, hc, hlen⟩ := h (name, j) List.mem_cons_self
    obtain ⟨cs, hcs, hlength, hwithin⟩ := ih fun m hm => h m (List.mem_cons_of_mem _ hm)
    refine ⟨(name, c) :: cs, by simp only [canonicalMembers, hc, hcs, Option.bind_some,
      Option.map_some], by rw [List.length_cons, List.length_cons, hlength], ?_⟩
    intro m hm
    rcases List.mem_cons.mp hm with rfl | hm
    · exact ⟨hname, hlen⟩
    · exact hwithin m hm

/-- An object of small members is small. -/
theorem small_obj (h : ∀ m ∈ ms, m.1.toList.length ≤ k ∧ Small n m.2) :
    Small (ms.length * (6 * k + n + 4) + 2) (obj ms) := by
  obtain ⟨cs, hcs, hlength, hwithin⟩ := exists_canonicalMembers h
  refine ⟨obj (sortMembers cs), by rw [canonical, hcs, Option.map_some], ?_⟩
  have hle := length_renderMembers_le fun m hm => hwithin m (mem_sortMembers hm)
  have hsorted := Nat.mul_le_mul_right (6 * k + n + 4)
    (le_trans (length_sortMembers_le cs) hlength.le)
  simp only [render, List.length_cons, List.length_append, List.length_nil]
  omega

end Tack.Lib.Json
