import Tack.Audit.RowHash
import Tack.Lib.Grouped

/-!
# The chain links of an export

An exported bundle is verified offline.  Each row leaves its chain coordinates behind; these are sorted
by shard and sequence and walked once, with the last sequence and the last hash of every shard at hand.
A row that repeats a sequence, or that does not name the hash of its immediate predecessor, is a break;
a missing sequence is counted, since an export is filtered.

## Main definitions

* `Audit.VerifyReport` — the gaps and the breaks that a report lists.
* `Audit.ChainLink`, `Audit.verifyChainLinks` — the walk.
* `Audit.Linked`, `Audit.gapPairs` — what it decides and what it counts.

## Main results

* `Audit.verifyChainLinks_exact` — no break is reported exactly for linked shards, the gaps are counted
  exactly, and neither depends on the order of the rows.
-/

namespace Tack.Audit

open Lib

/-! ### The report -/

/-- The part of the report that the walk fills in: the gaps it counted and the breaks it found. -/
structure VerifyReport where
  chainGapCount : ℕ
  chainBreaks : List String

/-! ### Links -/

/-- The chain coordinates of a row. -/
structure ChainLink where
  shard : Int16
  seq : Int64
  eventId : UUID
  prevHash : Bytes
  rowHash : Bytes
  deriving DecidableEq

/-- The order of the walk. -/
def ChainLink.less (a b : ChainLink) : Bool :=
  if a.shard ≠ b.shard then a.shard < b.shard else a.seq < b.seq

/-- The links in the order of the walk; links that are equal in it keep their places. -/
def sortLinks (links : List ChainLink) : List ChainLink := links.mergeSort fun a b => !b.less a

/-! ### The walk -/

/-- The last sequence and the last hash of each shard that was seen. -/
structure ChainWalk where
  lastSeqByShard : Int16 → Int64
  lastHashByShard : Int16 → Bytes
  seenShard : Int16 → Bool

def ChainWalk.start : ChainWalk := ⟨fun _ => 0, fun _ => [], fun _ => false⟩

/-- The walk behind a link; it advances for every row, matched or not. -/
def ChainWalk.advance (walk : ChainWalk) (link : ChainLink) : ChainWalk where
  lastSeqByShard := Function.update walk.lastSeqByShard link.shard link.seq
  lastHashByShard := Function.update walk.lastHashByShard link.shard link.rowHash
  seenShard := Function.update walk.seenShard link.shard true

/-- The breaks of a link whose shard was last at `lastSeq` with `lastHash`. -/
def breaksAt (lastSeq : Int64) (lastHash : Bytes) (link : ChainLink) : List String :=
  (if link.seq ≤ lastSeq then
    ["row " ++ link.eventId.text ++ " repeats sequence " ++ toString link.seq.toInt ++ " on shard " ++
      toString link.shard.toInt] else []) ++
  (if link.seq = lastSeq + 1 ∧ link.prevHash ≠ lastHash then
    ["row " ++ link.eventId.text ++ " has previous-hash link mismatch"] else [])

/-- A sequence that skips numbers; the sum is one of sixty-four bits. -/
def isGap (lastSeq seq : Int64) : Bool := lastSeq + 1 < seq

/-- Judges one link. -/
def verifyLink : VerifyReport × ChainWalk → ChainLink → VerifyReport × ChainWalk
  | (report, walk), link =>
    let lastSeq := walk.lastSeqByShard link.shard
    let lastHash := walk.lastHashByShard link.shard
    let report :=
      if walk.seenShard link.shard then
        { report with
          chainBreaks := report.chainBreaks ++ breaksAt lastSeq lastHash link
          chainGapCount := report.chainGapCount + if isGap lastSeq link.seq then 1 else 0 }
      else report
    (report, walk.advance link)

/-- The links judged in the order of the walk. -/
def walkLinks (report : VerifyReport) (links : List ChainLink) : VerifyReport × ChainWalk :=
  links.foldl verifyLink (report, .start)

def verifyChainLinks (report : VerifyReport) (links : List ChainLink) : VerifyReport :=
  (walkLinks report (sortLinks links)).1

/-! ### What is decided and what is counted -/

/-- In every shard the sequences differ, and each row names the hash of its immediate predecessor. -/
structure Linked (links : List ChainLink) : Prop where
  distinct : ∀ shard, ((group ChainLink.shard shard links).map ChainLink.seq).Nodup
  linked : ∀ a ∈ links, ∀ b ∈ links, a.shard = b.shard → b.seq.toInt = a.seq.toInt + 1 →
    b.prevHash = a.rowHash

/-- The sequences of a shard, ascending. -/
def sortedSeqs (shard : Int16) (links : List ChainLink) : List ℤ :=
  ((group ChainLink.shard shard links).map fun link => link.seq.toInt).mergeSort (· ≤ ·)

/-- The pairs of neighbouring sequences of a shard that differ by more than one. -/
def gapPairs (links : List ChainLink) : ℕ :=
  ∑ shard ∈ (links.map ChainLink.shard).toFinset,
    adjacent (fun k l => decide (k + 1 < l)) (sortedSeqs shard links)

/-! ### The order of the walk -/

theorem less_iff {a b : ChainLink} : a.less b = true ↔
    a.shard.toInt < b.shard.toInt ∨ a.shard = b.shard ∧ a.seq.toInt < b.seq.toInt := by
  rw [ChainLink.less]
  split_ifs with h
  · rw [decide_eq_true_iff, Int16.lt_iff_toInt_lt]
    simp [h]
  · rw [decide_eq_true_iff, Int64.lt_iff_toInt_lt]
    simp only [ne_eq, not_not] at h
    simp [h]

theorem not_less_iff {a b : ChainLink} : (!b.less a) = true ↔
    a.shard.toInt < b.shard.toInt ∨ a.shard = b.shard ∧ a.seq.toInt ≤ b.seq.toInt := by
  rw [Bool.not_eq_true', ← Bool.not_eq_true, less_iff, not_or, not_lt, not_and, not_lt]
  constructor
  · rintro ⟨hle, hseq⟩
    rcases hle.lt_or_eq with hlt | heq
    · exact .inl hlt
    · have heq := Int16.toInt_inj.mp heq
      exact .inr ⟨heq, hseq heq.symm⟩
  · rintro (hlt | ⟨heq, hle⟩)
    · exact ⟨hlt.le, fun h => absurd (h ▸ hlt) (lt_irrefl _)⟩
    · exact ⟨heq ▸ le_rfl, fun _ => hle⟩

theorem sorted_sortLinks (links : List ChainLink) : (sortLinks links).Pairwise fun a b =>
    a.shard.toInt < b.shard.toInt ∨ a.shard = b.shard ∧ a.seq.toInt ≤ b.seq.toInt := by
  have htrans : ∀ a b c : ChainLink, (!b.less a) = true → (!c.less b) = true → (!c.less a) = true := by
    intro a b c hab hbc
    rw [not_less_iff] at hab hbc ⊢
    rcases hab with hab | ⟨hab, hab'⟩ <;> rcases hbc with hbc | ⟨hbc, hbc'⟩
    · exact .inl (hab.trans hbc)
    · exact .inl (hbc ▸ hab)
    · exact .inl (hab ▸ hbc)
    · exact .inr ⟨hab.trans hbc, hab'.trans hbc'⟩
  have htotal : ∀ a b : ChainLink, ((!b.less a) || (!a.less b)) = true := by
    intro a b
    rw [Bool.or_eq_true, not_less_iff, not_less_iff]
    rcases lt_trichotomy a.shard.toInt b.shard.toInt with h | h | h
    · exact .inl (.inl h)
    · have h := Int16.toInt_inj.mp h
      exact (le_total a.seq.toInt b.seq.toInt).imp (fun hle => .inr ⟨h, hle⟩)
        fun hle => .inr ⟨h.symm, hle⟩
    · exact .inr (.inl h)
  exact (List.pairwise_mergeSort htrans htotal links).imp fun h => not_less_iff.mp h

theorem sortLinks_perm (links : List ChainLink) : (sortLinks links).Perm links :=
  List.mergeSort_perm _ _

/-- The links of a shard are walked by ascending sequence. -/
theorem sorted_group_sortLinks (shard : Int16) (links : List ChainLink) :
    (group ChainLink.shard shard (sortLinks links)).Pairwise fun a b => a.seq.toInt ≤ b.seq.toInt := by
  refine List.Pairwise.imp_of_mem ?_ ((sorted_sortLinks links).filter _)
  intro a b ha hb h
  have ha := (mem_group.mp ha).2
  have hb := (mem_group.mp hb).2
  rcases h with h | h
  · rw [ha, hb] at h
    exact absurd h (lt_irrefl _)
  · exact h.2

/-- The sequences that the walk sees in a shard. -/
theorem map_seq_group_sortLinks (shard : Int16) (links : List ChainLink) :
    (group ChainLink.shard shard (sortLinks links)).map (fun link => link.seq.toInt) =
      sortedSeqs shard links := by
  have hperm : ((group ChainLink.shard shard (sortLinks links)).map fun link => link.seq.toInt).Perm
      (sortedSeqs shard links) :=
    (((sortLinks_perm links).filter _).map _).trans (List.mergeSort_perm _ _).symm
  refine hperm.eq_of_pairwise' (List.pairwise_map.mpr (sorted_group_sortLinks shard links)) ?_
  exact List.pairwise_mergeSort' (· ≤ ·) _

theorem sortedSeqs_eq_of_perm {links links' : List ChainLink} (h : links.Perm links') (shard : Int16) :
    sortedSeqs shard links = sortedSeqs shard links' := by
  have hperm : (sortedSeqs shard links).Perm (sortedSeqs shard links') :=
    ((List.mergeSort_perm _ _).trans ((h.filter _).map _)).trans (List.mergeSort_perm _ _).symm
  exact hperm.eq_of_pairwise' (List.pairwise_mergeSort' (· ≤ ·) _) (List.pairwise_mergeSort' (· ≤ ·) _)

theorem linked_congr {links links' : List ChainLink} (h : links.Perm links') :
    Linked links ↔ Linked links' := by
  suffices hone : ∀ {links links' : List ChainLink}, links.Perm links' → Linked links → Linked links' from
    ⟨hone h, hone h.symm⟩
  intro links links' h hlinked
  exact ⟨fun shard => ((h.filter _).map _).nodup_iff.mp (hlinked.distinct shard),
    fun a ha b hb => hlinked.linked a (h.mem_iff.mpr ha) b (h.mem_iff.mpr hb)⟩

/-! ### The invariant of the walk -/

/-- A link follows the last one of its shard without a break. -/
def Follows (a b : ChainLink) : Prop :=
  a.seq.toInt < b.seq.toInt ∧ (b.seq.toInt = a.seq.toInt + 1 → b.prevHash = a.rowHash)

theorem toInt_add_one {k : Int64} (h : k.toInt < 2 ^ 63 - 1) : (k + 1).toInt = k.toInt + 1 := by
  have hlow := Int64.le_toInt k
  rw [Int64.toInt_add, Int64.toInt_one, Int.bmod_eq_of_le (by omega) (by omega)]

/-- The successor of a sequence, where there is one above it. -/
theorem eq_add_one_iff {k l : Int64} (h : k.toInt < l.toInt) :
    l = k + 1 ↔ l.toInt = k.toInt + 1 := by
  have hhigh := Int64.toInt_lt l
  rw [← Int64.toInt_inj, toInt_add_one (by omega)]

theorem isGap_of_lt {k l : Int64} (h : k.toInt < l.toInt) :
    isGap k l = decide (k.toInt + 1 < l.toInt) := by
  have hhigh := Int64.toInt_lt l
  have hiff : k + 1 < l ↔ k.toInt + 1 < l.toInt := by
    rw [Int64.lt_iff_toInt_lt, toInt_add_one (by omega)]
  rw [isGap, decide_eq_decide, hiff]

theorem breaksAt_eq_nil {a b : ChainLink} : breaksAt a.seq a.rowHash b = [] ↔ Follows a b := by
  rw [breaksAt, List.append_eq_nil_iff, Follows]
  simp only [ite_eq_right_iff, List.cons_ne_nil, imp_false, not_and, not_not, ne_eq,
    Int64.le_iff_toInt_le, not_le]
  refine and_congr_right fun hlt => ?_
  rw [eq_add_one_iff hlt]

/-- What the walk holds after some links. -/
structure WalkInv (report : VerifyReport) (links : List ChainLink)
    (result : VerifyReport × ChainWalk) : Prop where
  seen : ∀ shard, result.2.seenShard shard = (lastWith ChainLink.shard shard links).isSome
  last : ∀ shard, ∀ link ∈ lastWith ChainLink.shard shard links,
    result.2.lastSeqByShard shard = link.seq ∧ result.2.lastHashByShard shard = link.rowHash
  breaks : result.1.chainBreaks = report.chainBreaks ↔
    ∀ shard, (group ChainLink.shard shard links).IsChain Follows
  appended : report.chainBreaks <+: result.1.chainBreaks
  gaps : ∀ shards : Finset Int16, (∀ link ∈ links, link.shard ∈ shards) →
    result.1.chainGapCount = report.chainGapCount +
      ∑ shard ∈ shards, adjacent (fun a b => isGap a.seq b.seq) (group ChainLink.shard shard links)

theorem walkInv_nil (report : VerifyReport) : WalkInv report [] (report, .start) where
  seen _ := rfl
  last _ _ h := nomatch h
  breaks := iff_of_true rfl fun _ => List.isChain_nil
  appended := List.prefix_rfl
  gaps shards _ := by simp [group]

theorem advance_last {walk : ChainWalk} {links : List ChainLink} (link : ChainLink)
    (hseen : ∀ shard, walk.seenShard shard = (lastWith ChainLink.shard shard links).isSome)
    (hlast : ∀ shard, ∀ l ∈ lastWith ChainLink.shard shard links,
      walk.lastSeqByShard shard = l.seq ∧ walk.lastHashByShard shard = l.rowHash) :
    (∀ shard, (walk.advance link).seenShard shard =
      (lastWith ChainLink.shard shard (links ++ [link])).isSome) ∧
    ∀ shard, ∀ l ∈ lastWith ChainLink.shard shard (links ++ [link]),
      (walk.advance link).lastSeqByShard shard = l.seq ∧
        (walk.advance link).lastHashByShard shard = l.rowHash := by
  refine ⟨fun shard => ?_, fun shard l hl => ?_⟩
  · rw [lastWith_concat]
    by_cases h : link.shard = shard
    · subst h
      simp [ChainWalk.advance]
    · simp [ChainWalk.advance, h, Function.update_of_ne (Ne.symm h), hseen]
  · rw [lastWith_concat] at hl
    by_cases h : link.shard = shard
    · subst h
      rw [if_pos rfl, Option.mem_some_iff] at hl
      subst hl
      simp [ChainWalk.advance]
    · rw [if_neg h] at hl
      simp only [ChainWalk.advance, Function.update_of_ne (Ne.symm h)]
      exact hlast shard l hl

/-- One more link. -/
theorem WalkInv.step {report : VerifyReport} {links : List ChainLink}
    {result : VerifyReport × ChainWalk} (h : WalkInv report links result) (link : ChainLink) :
    WalkInv report (links ++ [link]) (verifyLink result link) := by
  obtain ⟨current, walk⟩ := result
  obtain ⟨hseen', hlast'⟩ := advance_last link h.seen h.last
  have hgaps := fun (shards : Finset Int16) (hshards : ∀ l ∈ links ++ [link], l.shard ∈ shards) =>
    h.gaps shards fun l hl => hshards l (List.mem_append_left _ hl)
  cases hlink : lastWith ChainLink.shard link.shard links with
  | none =>
    have hnew : walk.seenShard link.shard = false := by rw [h.seen, hlink]; rfl
    have hsame : verifyLink (current, walk) link = (current, walk.advance link) := by
      rw [verifyLink]
      simp [hnew]
    rw [hsame]
    refine ⟨hseen', hlast', ?_, h.appended, fun shards hshards => ?_⟩
    · rw [h.breaks, forall_isChain_group_concat, hlink]
      simp
    · rw [hgaps shards hshards, sum_adjacent_group_concat _ _ (hshards link (by simp)), hlink]
      simp
  | some last =>
    have hold : walk.seenShard link.shard = true := by rw [h.seen, hlink]; rfl
    obtain ⟨hseq, hhash⟩ := h.last link.shard last hlink
    have hjudged : verifyLink (current, walk) link =
        ({ current with
            chainBreaks := current.chainBreaks ++ breaksAt last.seq last.rowHash link
            chainGapCount := current.chainGapCount + if isGap last.seq link.seq then 1 else 0 },
          walk.advance link) := by
      simp only at hseq hhash
      rw [verifyLink]
      simp only [hold, if_true, hseq, hhash]
    rw [hjudged]
    refine ⟨hseen', hlast', ?_, h.appended.trans (List.prefix_append _ _), fun shards hshards => ?_⟩
    · rw [forall_isChain_group_concat, hlink]
      simp only [Option.mem_some_iff, forall_eq']
      rw [← breaksAt_eq_nil, ← h.breaks]
      constructor
      · -- the breaks only grow, so none was added before or now
        intro heq
        have hlen := congrArg List.length heq
        have hle : report.chainBreaks.length ≤ current.chainBreaks.length := h.appended.length_le
        rw [List.length_append] at hlen
        have hnil := List.eq_nil_of_length_eq_zero
          (by omega : (breaksAt last.seq last.rowHash link).length = 0)
        rw [hnil, List.append_nil] at heq
        exact ⟨heq, hnil⟩
      · rintro ⟨heq, hnil⟩
        rw [hnil, List.append_nil, heq]
    · have hcount := hgaps shards hshards
      simp only at hcount
      rw [sum_adjacent_group_concat _ _ (hshards link (by simp)), hlink]
      simp only [hcount, Option.any_some]
      omega

theorem walkInv (report : VerifyReport) (links : List ChainLink) :
    WalkInv report links (walkLinks report links) := by
  induction links using List.reverseRecOn with
  | nil => exact walkInv_nil report
  | append_singleton links link ih =>
    rw [walkLinks, List.foldl_append]
    exact ih.step link

/-! ### The verdict -/

/-- The shards of the walk are chains exactly when the links are linked. -/
theorem isChain_iff_linked (links : List ChainLink) :
    (∀ shard, (group ChainLink.shard shard (sortLinks links)).IsChain Follows) ↔ Linked links := by
  rw [← linked_congr (sortLinks_perm links)]
  have hshard := fun shard => isChain_iff_of_sorted (L := fun a b : ChainLink => b.prevHash = a.rowHash)
    (sorted_group_sortLinks shard links)
  have hnodup : ∀ xs : List ChainLink, (xs.map fun link => link.seq.toInt).Nodup ↔
      (xs.map ChainLink.seq).Nodup := by
    intro xs
    rw [← List.nodup_map_iff (f := Int64.toInt) (fun a b h => Int64.toInt_inj.mp h), List.map_map]
    rfl
  constructor
  · intro h
    refine ⟨fun shard => (hnodup _).mp ((hshard shard).mp (h shard)).1, fun a ha b hb hab => ?_⟩
    exact ((hshard a.shard).mp (h a.shard)).2 a (mem_group.mpr ⟨ha, rfl⟩) b
      (mem_group.mpr ⟨hb, hab.symm⟩)
  · intro h shard
    refine (hshard shard).mpr ⟨(hnodup _).mpr (h.distinct shard), fun a ha b hb => ?_⟩
    obtain ⟨ha, hshard⟩ := mem_group.mp ha
    obtain ⟨hb, hshard'⟩ := mem_group.mp hb
    exact h.linked a ha b hb (hshard.trans hshard'.symm)

/-- The gaps counted in the walk, from the sequences alone. -/
theorem chainGapCount_verifyChainLinks (report : VerifyReport) (links : List ChainLink) :
    (verifyChainLinks report links).chainGapCount = report.chainGapCount +
      ∑ shard ∈ (links.map ChainLink.shard).toFinset,
        adjacent (fun a b => isGap (Int64.ofInt a) (Int64.ofInt b)) (sortedSeqs shard links) := by
  rw [verifyChainLinks, (walkInv report (sortLinks links)).gaps (links.map ChainLink.shard).toFinset
    fun link hlink => List.mem_toFinset.mpr
      (List.mem_map_of_mem ((sortLinks_perm links).mem_iff.mp hlink))]
  refine congrArg _ (Finset.sum_congr rfl fun shard _ => ?_)
  rw [← map_seq_group_sortLinks, adjacent_map]
  simp only [Int64.ofInt_toInt]

/-- Without a break the sequences of a shard ascend, and their gaps are those of the integers. -/
theorem chainGapCount_of_linked {report : VerifyReport} {links : List ChainLink} (h : Linked links) :
    (verifyChainLinks report links).chainGapCount = report.chainGapCount + gapPairs links := by
  rw [chainGapCount_verifyChainLinks, gapPairs]
  refine congrArg _ (Finset.sum_congr rfl fun shard _ => ?_)
  rw [← map_seq_group_sortLinks, adjacent_map, adjacent_map]
  refine adjacent_congr ((isChain_iff_linked links).mpr h shard) fun a b hab => ?_
  rw [Int64.ofInt_toInt, Int64.ofInt_toInt, isGap_of_lt hab.1]

/-- **The walk over the links is exact.**  No break is reported exactly when in every shard the
sequences differ and each row names its immediate predecessor; without a break the gaps are those
between neighbouring sequences; and neither depends on the order of the rows. -/
theorem verifyChainLinks_exact (report : VerifyReport) (links : List ChainLink) :
    ((verifyChainLinks report links).chainBreaks = report.chainBreaks ↔ Linked links) ∧
    ((verifyChainLinks report links).chainBreaks = report.chainBreaks →
      (verifyChainLinks report links).chainGapCount = report.chainGapCount + gapPairs links) ∧
    ∀ links', links.Perm links' →
      ((verifyChainLinks report links').chainBreaks = report.chainBreaks ↔
        (verifyChainLinks report links).chainBreaks = report.chainBreaks) ∧
      (verifyChainLinks report links').chainGapCount =
        (verifyChainLinks report links).chainGapCount := by
  have hbreaks : ∀ links, (verifyChainLinks report links).chainBreaks = report.chainBreaks ↔
      Linked links := fun links =>
    (walkInv report (sortLinks links)).breaks.trans (isChain_iff_linked links)
  refine ⟨hbreaks links, fun h => chainGapCount_of_linked ((hbreaks links).mp h),
    fun links' hperm => ⟨?_, ?_⟩⟩
  · rw [hbreaks, hbreaks, linked_congr hperm]
  · have hshards : (links'.map ChainLink.shard).toFinset = (links.map ChainLink.shard).toFinset :=
      (List.toFinset_eq_of_perm _ _ (hperm.map _)).symm
    rw [chainGapCount_verifyChainLinks, chainGapCount_verifyChainLinks, hshards]
    simp only [sortedSeqs_eq_of_perm hperm]

end Tack.Audit
