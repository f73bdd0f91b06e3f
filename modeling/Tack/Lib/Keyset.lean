import Mathlib

/-!
# Keyset paging

Rows are read in pages in descending order of a key, and each page resumes below the key of the last
row of the page before it.  The store orders the rows of each query as it likes where keys are equal.

A key may not survive being handed to the reader and back: `resume` says what is left of it, an
error, no bound at all, or the key.

## Main definitions

* `Lib.Descending`, `Lib.TieBreaking` — descending order of keys, and a store's choice among equal
  keys, query by query.
* `Lib.collect` — all pages in a row.
* `Lib.Separated` — every page ends where the keys differ, at a key that survives.

## Main results

* `Lib.collect_exact_iff` — paging returns every row exactly once, whatever the store does with
  equal keys, exactly when the pages are separated.
-/

namespace Tack.Lib

variable {α κ ε : Type*} [LinearOrder κ] {key : α → κ}

/-! ### Descending lists -/

/-- The keys do not increase. -/
def Descending (key : α → κ) (l : List α) : Prop := l.Pairwise fun a b => key b ≤ key a

theorem descending_append {l m : List α} : Descending key (l ++ m) ↔
    Descending key l ∧ Descending key m ∧ ∀ a ∈ l, ∀ b ∈ m, key b ≤ key a :=
  List.pairwise_append

/-- The rows sorted by descending keys. -/
def descendingSort (key : α → κ) (rows : List α) : List α :=
  rows.mergeSort fun a b => decide (key b ≤ key a)

theorem perm_descendingSort (key : α → κ) (rows : List α) : (descendingSort key rows).Perm rows :=
  List.mergeSort_perm _ _

theorem descending_descendingSort (key : α → κ) (rows : List α) :
    Descending key (descendingSort key rows) := by
  have h : (descendingSort key rows).Pairwise fun a b => decide (key b ≤ key a) = true := by
    refine List.pairwise_mergeSort ?_ ?_ _
    · intro a b c hab hbc
      simp only [decide_eq_true_eq] at hab hbc ⊢
      exact hbc.trans hab
    · intro a b
      simpa using le_total (key b) (key a)
  exact h.imp fun h => of_decide_eq_true h

/-- The keys of the rows in descending order. -/
def descendingKeys (key : α → κ) (rows : List α) : List κ := descendingSort id (rows.map key)

theorem length_descendingKeys (key : α → κ) (rows : List α) :
    (descendingKeys key rows).length = rows.length := by
  rw [descendingKeys, (perm_descendingSort _ _).length_eq, List.length_map]

/-- Descending lists of the same rows have the same keys, wherever equal keys stand. -/
theorem Descending.map_eq {l rows : List α} (h : Descending key l) (hp : l.Perm rows) :
    l.map key = descendingKeys key rows := by
  have hl : (l.map key).Pairwise fun a b => b ≤ a := List.pairwise_map.mpr h
  have hk : (descendingKeys key rows).Pairwise fun a b => b ≤ a := descending_descendingSort id _
  exact List.Perm.eq_of_pairwise (fun a b _ _ hab hba => le_antisymm hba hab) hl hk
    ((hp.map key).trans (perm_descendingSort id _).symm)

/-! ### Queries -/

/-- What a store does with equal keys: the order of the rows of each query. -/
structure TieBreaking (key : α → κ) where
  order : ℕ → List α → List α
  perm : ∀ n l, (order n l).Perm l
  descending : ∀ n l, Descending key (order n l)

/-- The store that sorts every query in the same way. -/
def TieBreaking.stable (key : α → κ) : TieBreaking key where
  order _ := descendingSort key
  perm _ := perm_descendingSort key
  descending _ := descending_descendingSort key

/-- The rows below a bound, if there is one. -/
def below (key : α → κ) (rows : List α) : Option κ → List α
  | none => rows
  | some k => rows.filter fun a => decide (key a < k)

theorem mem_below {rows : List α} {bound : Option κ} {a : α} :
    a ∈ below key rows bound ↔ a ∈ rows ∧ ∀ k, bound = some k → key a < k := by
  cases bound <;> simp [below]

omit [LinearOrder κ] in
theorem map_map_eq_ok {β : Type*} {x : Option (Except ε α)} {g : α → β} {b : β} :
    (x.map fun r => r.map g) = some (.ok b) ↔ ∃ a, x = some (.ok a) ∧ g a = b := by
  rcases x with _ | _ | a
  · simp
  · simp [Except.map]
  · simp [Except.map]

section Collect

variable (resume : κ → Except ε (Option κ)) (limit : ℕ) (rows : List α) (ties : TieBreaking key)

/-- The page of the query number `n`. -/
def page (n : ℕ) (bound : Option κ) : List α := (ties.order n (below key rows bound)).take limit

/-- The rows of the query after its page. -/
def afterPage (n : ℕ) (bound : Option κ) : List α :=
  (ties.order n (below key rows bound)).drop limit

/-- All pages in a row from the query number `n` on; `none` when the fuel does not suffice.  A page
that is not full ends the reading. -/
def collect : ℕ → ℕ → Option κ → Option (Except ε (List α))
  | 0, _, _ => none
  | fuel + 1, n, bound =>
    let rows' := page limit rows ties n bound
    if rows'.length = limit then
      match rows'.getLast? with
      | none => some (.ok rows')
      | some last =>
        match resume (key last) with
        | .error e => some (.error e)
        | .ok next => (collect fuel (n + 1) next).map fun rest => rest.map (rows' ++ ·)
    else some (.ok rows')

/-- Every full page ends at a key that survives and that the row after the page does not have. -/
def Separated (keys : List κ) : Prop :=
  ∀ j, 0 < j → ∀ k, keys[j * limit - 1]? = some k →
    resume k = .ok (some k) ∧ keys[j * limit]? ≠ some k

/-- Paging from a bound ends with every row below it exactly once, in descending order. -/
def CollectsExactly (bound : Option κ) : Prop :=
  ∃ fuel out, collect resume limit rows ties fuel 0 bound = some (.ok out) ∧
    out.Perm (below key rows bound) ∧ Descending key out

variable {resume limit rows ties} {n : ℕ} {bound : Option κ}

/-! ### One page -/

section Page

variable (limit rows ties n bound)

theorem page_append_afterPage : page limit rows ties n bound ++ afterPage limit rows ties n bound =
    ties.order n (below key rows bound) :=
  List.take_append_drop _ _

theorem page_append_perm :
    (page limit rows ties n bound ++ afterPage limit rows ties n bound).Perm
      (below key rows bound) := by
  rw [page_append_afterPage]
  exact ties.perm _ _

theorem page_append_descending :
    Descending key (page limit rows ties n bound ++ afterPage limit rows ties n bound) := by
  rw [page_append_afterPage]
  exact ties.descending _ _

theorem keys_eq : descendingKeys key (below key rows bound) =
    (page limit rows ties n bound).map key ++ (afterPage limit rows ties n bound).map key := by
  rw [← List.map_append]
  exact ((page_append_descending limit rows ties n bound).map_eq
    (page_append_perm limit rows ties n bound)).symm

end Page

theorem mem_below_of_mem_page {a : α} (h : a ∈ page limit rows ties n bound) :
    a ∈ below key rows bound :=
  (page_append_perm limit rows ties n bound).subset (List.mem_append_left _ h)

theorem length_page_le : (page limit rows ties n bound).length ≤ limit := by
  simp [page]

/-- A page that is not full has no rows after it. -/
theorem afterPage_eq_nil (h : (page limit rows ties n bound).length < limit) :
    afterPage limit rows ties n bound = [] := by
  rw [page, List.length_take] at h
  rw [afterPage, List.drop_eq_nil_iff]
  omega

/-- The rows below the last row of a page are the rows after it, when none of them ties with it. -/
theorem afterPage_perm {last : α} (hlast : (page limit rows ties n bound).getLast? = some last)
    (hties : ∀ b, (afterPage limit rows ties n bound).head? = some b → key b ≠ key last) :
    (afterPage limit rows ties n bound).Perm (below key rows (some (key last))) := by
  obtain ⟨front, hfront⟩ := List.getLast?_eq_some_iff.mp hlast
  obtain ⟨hpage, hafter, hcross⟩ :=
    descending_append.mp (page_append_descending limit rows ties n bound)
  have hmem : last ∈ page limit rows ties n bound := by simp [hfront]
  -- nothing of the page is below its last row, and everything after it is
  have hpageNil : (page limit rows ties n bound).filter (fun a => decide (key a < key last)) = [] := by
    refine List.filter_eq_nil_iff.mpr fun a ha => ?_
    rw [hfront] at ha hpage
    rcases List.mem_append.mp ha with ha | ha
    · simpa using (descending_append.mp hpage).2.2 a ha last (by simp)
    · simp [List.mem_singleton.mp ha]
  have hafterAll : (afterPage limit rows ties n bound).filter (fun a => decide (key a < key last)) =
      afterPage limit rows ties n bound := by
    refine List.filter_eq_self.mpr fun a ha => decide_eq_true ?_
    cases hhead : afterPage limit rows ties n bound with
    | nil => simp [hhead] at ha
    | cons b rest =>
      have hb : key b < key last := by
        refine lt_of_le_of_ne (hcross last hmem b (by simp [hhead])) (hties b (by simp [hhead]))
      rw [hhead] at ha hafter
      rcases List.mem_cons.mp ha with rfl | ha
      · exact hb
      · exact (List.rel_of_pairwise_cons hafter ha).trans_lt hb
  have hbelow : (below key rows bound).filter (fun a => decide (key a < key last)) =
      below key rows (some (key last)) := by
    cases hbound : bound with
    | none => rfl
    | some k =>
      have hk : key last < k := (mem_below.mp (mem_below_of_mem_page hmem)).2 k hbound
      simp only [below, List.filter_filter]
      refine List.filter_congr fun a _ => ?_
      by_cases ha : key a < key last
      · simp [ha, ha.trans hk]
      · simp [ha]
  have hperm := (page_append_perm limit rows ties n bound).filter fun a => decide (key a < key last)
  rwa [List.filter_append, hpageNil, hafterAll, List.nil_append, hbelow] at hperm

/-! ### All pages -/

/-- What a reading that ends well did at its first page. -/
theorem collect_cases (hlimit : 0 < limit) {fuel : ℕ} {out : List α}
    (h : collect resume limit rows ties (fuel + 1) n bound = some (.ok out)) :
    ((page limit rows ties n bound).length < limit ∧ out = page limit rows ties n bound) ∨
    ∃ last next rest, (page limit rows ties n bound).length = limit ∧
      (page limit rows ties n bound).getLast? = some last ∧ resume (key last) = .ok next ∧
      collect resume limit rows ties fuel (n + 1) next = some (.ok rest) ∧
      out = page limit rows ties n bound ++ rest := by
  simp only [collect] at h
  by_cases hfull : (page limit rows ties n bound).length = limit
  · rw [if_pos hfull] at h
    cases hlast : (page limit rows ties n bound).getLast? with
    | none =>
      rw [List.getLast?_eq_none_iff] at hlast
      rw [hlast, List.length_nil] at hfull
      omega
    | some last =>
      simp only [hlast] at h
      cases hresume : resume (key last) with
      | error e => simp [hresume] at h
      | ok next =>
        simp only [hresume] at h
        obtain ⟨rest, hrest, hout⟩ := map_map_eq_ok.mp h
        exact .inr ⟨last, next, rest, hfull, rfl, hresume, hrest, hout.symm⟩
  · rw [if_neg hfull] at h
    refine .inl ⟨lt_of_le_of_ne length_page_le hfull, ?_⟩
    simpa using h.symm

theorem collect_mono {fuel : ℕ} {result : Except ε (List α)}
    (h : collect resume limit rows ties fuel n bound = some result) :
    collect resume limit rows ties (fuel + 1) n bound = some result := by
  induction fuel generalizing n bound result with
  | zero => cases h
  | succ fuel ih =>
    rw [collect] at h ⊢
    split_ifs at h ⊢ with hfull
    · cases hlast : (page limit rows ties n bound).getLast? with
      | none => simpa [hlast] using h
      | some last =>
        simp only [hlast] at h ⊢
        cases hresume : resume (key last) with
        | error e => simpa [hresume] using h
        | ok next =>
          simp only [hresume] at h ⊢
          obtain ⟨rest, hrest, hout⟩ := Option.map_eq_some_iff.mp h
          rw [ih hrest, ← hout]
          rfl
    · exact h

/-- The store that sorts every query in the same way answers by the rows alone. -/
theorem collect_stable {fuel m : ℕ} {bound' : Option κ} (h : below key rows bound = below key rows bound') :
    collect resume limit rows (TieBreaking.stable key) fuel n bound =
      collect resume limit rows (TieBreaking.stable key) fuel m bound' := by
  induction fuel generalizing n m bound bound' with
  | zero => rfl
  | succ fuel ih =>
    have hpage : page limit rows (TieBreaking.stable key) n bound =
        page limit rows (TieBreaking.stable key) m bound' := by
      rw [page, page, h]
      rfl
    simp only [collect, hpage]
    split_ifs
    · cases (page limit rows (TieBreaking.stable key) m bound').getLast? with
      | none => rfl
      | some last =>
        cases hresume : resume (key last) with
        | error e => simp [hresume]
        | ok next =>
          simp only [hresume]
          rw [ih rfl]
    · rfl

/-- The first row read is a row of the first query. -/
theorem head_collect_mem (hlimit : 0 < limit) {fuel : ℕ} {out : List α} {a : α}
    (h : collect resume limit rows ties fuel n bound = some (.ok out)) (ha : out.head? = some a) :
    a ∈ page limit rows ties n bound := by
  cases fuel with
  | zero => cases h
  | succ fuel =>
    obtain ⟨-, rfl⟩ | ⟨last, next, rest, hfull, hlast, -, -, rfl⟩ := collect_cases hlimit h
    · exact List.mem_of_mem_head? ha
    · obtain ⟨front, hfront⟩ := List.getLast?_eq_some_iff.mp hlast
      rw [List.head?_append_of_ne_nil _ (by simp [hfront])] at ha
      exact List.mem_of_mem_head? ha

omit [LinearOrder κ] in
/-- Pages are separated when the first one is and those after it are. -/
theorem separated_iff {keys : List κ} (hlimit : 0 < limit) : Separated resume limit keys ↔
    (∀ k, keys[limit - 1]? = some k → resume k = .ok (some k) ∧ keys[limit]? ≠ some k) ∧
      Separated resume limit (keys.drop limit) := by
  have hindex : ∀ j, 0 < j → limit + (j * limit - 1) = (j + 1) * limit - 1 := by
    intro j hj
    have : 0 < j * limit := Nat.mul_pos hj hlimit
    rw [Nat.add_mul, Nat.one_mul]
    omega
  have hnext : ∀ j, limit + j * limit = (j + 1) * limit := by
    intro j
    rw [Nat.add_mul, Nat.one_mul, Nat.add_comm]
  simp only [Separated, List.getElem?_drop, hnext]
  constructor
  · intro h
    refine ⟨fun k hk => by simpa using h 1 Nat.one_pos k (by simpa using hk), fun j hj k hk => ?_⟩
    exact h (j + 1) (by omega) k (by rw [← hindex j hj]; exact hk)
  · rintro ⟨hfirst, hrest⟩ j hj k hk
    obtain ⟨i, rfl⟩ : ∃ i, j = i + 1 := ⟨j - 1, by omega⟩
    cases i with
    | zero => simpa using hfirst k (by simpa using hk)
    | succ i => exact hrest (i + 1) (by omega) k (by rw [hindex _ (by omega)]; exact hk)

/-- The key at the end of a full page, and what is read next when the key after it differs. -/
theorem keys_boundary {last : α} (hfull : (page limit rows ties n bound).length = limit)
    (hlast : (page limit rows ties n bound).getLast? = some last) :
    (descendingKeys key (below key rows bound))[limit - 1]? = some (key last) ∧
      ((descendingKeys key (below key rows bound))[limit]? ≠ some (key last) →
        (afterPage limit rows ties n bound).Perm (below key rows (some (key last))) ∧
        descendingKeys key (below key rows (some (key last))) =
          (descendingKeys key (below key rows bound)).drop limit) := by
  obtain ⟨front, hfront⟩ := List.getLast?_eq_some_iff.mp hlast
  have hlen : front.length + 1 = limit := by rw [← hfull, hfront]; simp
  have hmap : ((page limit rows ties n bound).map key).length = limit := by
    rw [List.length_map, hfull]
  rw [keys_eq limit rows ties n bound]
  refine ⟨?_, fun hne => ?_⟩
  · rw [List.getElem?_append_left (by omega), hfront, List.map_append, ← hlen]
    simp
  · rw [List.getElem?_append_right (by omega), hmap, Nat.sub_self, ← List.head?_eq_getElem?,
      List.head?_map] at hne
    have hperm := afterPage_perm hlast fun b hb heq => hne (by rw [hb, Option.map_some, heq])
    refine ⟨hperm, ?_⟩
    rw [List.drop_append, List.drop_of_length_le (by omega), hmap, Nat.sub_self, List.nil_append,
      List.drop_zero,
      (descending_append.mp (page_append_descending limit rows ties n bound)).2.1.map_eq hperm]

/-- **Separated pages are read exactly once**, whatever the store does with equal keys. -/
theorem exists_collect (hlimit : 0 < limit) {fuel : ℕ} (hfuel : (below key rows bound).length < fuel)
    (h : Separated resume limit (descendingKeys key (below key rows bound))) :
    ∃ out, collect resume limit rows ties fuel n bound = some (.ok out) ∧
      out.Perm (below key rows bound) ∧ Descending key out := by
  induction fuel generalizing n bound with
  | zero => omega
  | succ fuel ih =>
    rcases Nat.lt_or_ge (page limit rows ties n bound).length limit with hshort | hge
    · refine ⟨page limit rows ties n bound, ?_, ?_, ?_⟩
      · simp [collect, hshort.ne]
      · simpa [afterPage_eq_nil hshort] using
          page_append_perm limit rows ties n bound
      · exact (descending_append.mp (page_append_descending limit rows ties n bound)).1
    · have hfull := Nat.le_antisymm length_page_le hge
      obtain ⟨last, hlast⟩ : ∃ last, (page limit rows ties n bound).getLast? = some last :=
        ⟨_, List.getLast?_eq_some_getLast fun hnil => by
          rw [hnil, List.length_nil] at hfull
          omega⟩
      obtain ⟨hkey, hafter⟩ := keys_boundary hfull hlast
      obtain ⟨hfirst, hlater⟩ := (separated_iff hlimit).mp h
      obtain ⟨hresume, hne⟩ := hfirst (key last) hkey
      obtain ⟨hperm, hkeys⟩ := hafter hne
      have hdesc := descending_append.mp (page_append_descending limit rows ties n bound)
      -- the rest of the reading is a reading of the rows after the page
      have hlen : (below key rows (some (key last))).length < fuel := by
        have htotal := (page_append_perm limit rows ties n bound).length_eq
        rw [List.length_append, hfull, hperm.length_eq] at htotal
        omega
      obtain ⟨rest, hrest, hrestPerm, hrestDesc⟩ := ih (n := n + 1) hlen (hkeys ▸ hlater)
      refine ⟨page limit rows ties n bound ++ rest, ?_, ?_, ?_⟩
      · simp [collect, hfull, hlast, hresume, hrest, Except.map]
      · exact ((hrestPerm.trans hperm.symm).append_left _).trans (page_append_perm _ _ _ _ _)
      · refine descending_append.mpr ⟨hdesc.1, hrestDesc, fun a ha b hb => ?_⟩
        exact hdesc.2.2 a ha b ((hrestPerm.trans hperm.symm).subset hb)

/-- A reading that starts over without a bound does not return the rows of its first query exactly
once. -/
theorem not_collect_none (hlimit : 0 < limit) {fuel : ℕ} {rest : List α}
    (hfull : (page limit rows (TieBreaking.stable key) n bound).length = limit)
    (h : collect resume limit rows (TieBreaking.stable key) (fuel + 1) n bound =
      some (.ok (page limit rows (TieBreaking.stable key) n bound ++ rest)))
    (hrest : collect resume limit rows (TieBreaking.stable key) fuel (n + 1) none = some (.ok rest))
    (hperm : (page limit rows (TieBreaking.stable key) n bound ++ rest).Perm
      (below key rows bound)) : False := by
  by_cases hall : below key rows bound = rows
  · -- the reading repeats itself
    have hsame : collect resume limit rows (TieBreaking.stable key) (fuel + 1) (n + 1) none =
        collect resume limit rows (TieBreaking.stable key) (fuel + 1) n bound :=
      collect_stable (by rw [hall]; rfl)
    have hagain := collect_mono hrest
    rw [hsame, h] at hagain
    have hlen := congrArg List.length (Except.ok.inj (Option.some.inj hagain))
    rw [List.length_append, hfull] at hlen
    omega
  · -- the new start returns a row that is not below the bound
    obtain ⟨k, hk⟩ : ∃ k, bound = some k := by
      cases bound with
      | none => exact absurd rfl hall
      | some k => exact ⟨k, rfl⟩
    obtain ⟨a, ha, hka⟩ : ∃ a ∈ rows, k ≤ key a := by
      by_contra hnone
      push Not at hnone
      refine hall ?_
      rw [hk]
      exact List.filter_eq_self.mpr fun a ha => decide_eq_true (hnone a ha)
    have hsort := (TieBreaking.stable key).perm (n + 1) rows
    have hdesc := (TieBreaking.stable key).descending (n + 1) rows
    cases hrows : (TieBreaking.stable key).order (n + 1) rows with
    | nil =>
      rw [hrows] at hsort
      exact absurd (hsort.symm.subset ha) (by simp)
    | cons top others =>
      have htop : k ≤ key top := by
        have hmem := hsort.symm.subset ha
        rw [hrows] at hmem hdesc
        rcases List.mem_cons.mp hmem with rfl | hmem
        · exact hka
        · exact hka.trans (List.rel_of_pairwise_cons hdesc hmem)
      -- the top row opens the page without a bound
      have hmem : top ∈ rest := by
        cases fuel with
        | zero => cases hrest
        | succ fuel =>
          have hpage : top ∈ page limit rows (TieBreaking.stable key) (n + 1) none := by
            obtain ⟨l, rfl⟩ : ∃ l, limit = l + 1 := ⟨limit - 1, by omega⟩
            rw [page, below, hrows]
            simp
          obtain ⟨-, rfl⟩ | ⟨_, _, _, -, -, -, -, rfl⟩ := collect_cases hlimit hrest
          · exact hpage
          · exact List.mem_append_left _ hpage
      have hlt := (mem_below.mp (hperm.subset (List.mem_append_right _ hmem))).2 k hk
      exact absurd htop hlt.not_ge

/-- A reading that returns every row exactly once has separated pages. -/
theorem separated_of_collect (hlimit : 0 < limit)
    (hresume : ∀ a ∈ rows, ∀ next, resume (key a) = .ok next → next = none ∨ next = some (key a))
    {fuel : ℕ} {out : List α}
    (h : collect resume limit rows (TieBreaking.stable key) fuel n bound = some (.ok out))
    (hperm : out.Perm (below key rows bound)) (hdesc : Descending key out) :
    Separated resume limit (descendingKeys key (below key rows bound)) := by
  induction fuel generalizing n bound out with
  | zero => cases h
  | succ fuel ih =>
    obtain ⟨hshort, rfl⟩ | ⟨last, next, rest, hfull, hlast, hnext, hrest, rfl⟩ :=
      collect_cases hlimit h
    · -- there is no full page
      intro j hj k hk
      have hj' := Nat.le_mul_of_pos_left limit hj
      have hlen := hperm.length_eq
      rw [List.getElem?_eq_none (by rw [length_descendingKeys]; omega)] at hk
      cases hk
    · have hmem : last ∈ rows :=
        (mem_below.mp (mem_below_of_mem_page (List.mem_of_getLast? hlast))).1
      obtain rfl | rfl := hresume last hmem _ hnext
      · exact (not_collect_none hlimit hfull h hrest hperm).elim
      · obtain ⟨hkey, hafter⟩ := keys_boundary hfull hlast
        have hout := hdesc.map_eq hperm
        rw [List.map_append] at hout
        -- the row after the page is the first row of the rest, which is below the last row
        have hne : (descendingKeys key (below key rows bound))[limit]? ≠ some (key last) := by
          rw [← hout, List.getElem?_append_right (by simp [hfull]), List.length_map, hfull,
            Nat.sub_self, ← List.head?_eq_getElem?, List.head?_map]
          intro htie
          obtain ⟨a, ha, hak⟩ := Option.map_eq_some_iff.mp htie
          have hbelow := mem_below_of_mem_page (head_collect_mem hlimit hrest ha)
          exact absurd hak ((mem_below.mp hbelow).2 _ rfl).ne
        obtain ⟨hafterPerm, hkeys⟩ := hafter hne
        have hrestPerm : rest.Perm (below key rows (some (key last))) := by
          have := hperm.trans (page_append_perm limit rows (TieBreaking.stable key) n bound).symm
          exact ((List.perm_append_left_iff _).mp this).trans hafterPerm
        have hlater := ih hrest hrestPerm (descending_append.mp hdesc).2.1
        refine (separated_iff hlimit).mpr ⟨fun k hk => ?_, ?_⟩
        · rw [hkey] at hk
          obtain rfl := Option.some.inj hk
          exact ⟨hnext, hne⟩
        · exact hkeys ▸ hlater

/-- **Paging is exactly once iff the pages are separated.** -/
theorem collect_exact_iff (hlimit : 0 < limit)
    (hresume : ∀ a ∈ rows, ∀ next, resume (key a) = .ok next → next = none ∨ next = some (key a)) :
    (∀ ties : TieBreaking key, CollectsExactly resume limit rows ties bound) ↔
      Separated resume limit (descendingKeys key (below key rows bound)) := by
  constructor
  · intro h
    obtain ⟨fuel, out, hout, hperm, hdesc⟩ := h (TieBreaking.stable key)
    exact separated_of_collect hlimit hresume hout hperm hdesc
  · intro h ties
    obtain ⟨out, hout⟩ := exists_collect hlimit (Nat.lt_succ_self _) h
    exact ⟨_, out, hout⟩

end Collect

end Tack.Lib
