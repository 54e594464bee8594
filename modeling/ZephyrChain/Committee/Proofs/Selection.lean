/-
Committees are a prefix of one ranking of the candidate set.

Both sorts of the selection are by keys that tell the candidates apart
(the id alone for the root, rank and id for the ranking), so neither the
root nor the ranking depends on the order of the list. The root hashes
the number of candidates and 32 bytes for each, so where the hash does
not collide equal roots mean equal sorted lists.
-/
import ZephyrChain.Committee
import ZephyrChain.Lib.ExactReader
import ZephyrChain.Lib.SortBy

namespace ZephyrChain.Committee

open Lib

variable {C : Crypto} {candidates candidates' : List CandidateID}

-- ==== root

theorem sortCandidates_perm (candidates : List CandidateID) :
    (sortCandidates candidates).Perm candidates :=
  List.perm_insertionSort _ _

theorem sortCandidates_eq_of_perm (h : candidates.Perm candidates') :
    sortCandidates candidates = sortCandidates candidates' :=
  @insertionSort_eq_of_key _ _ Bytes32.Before _ _ _ id _ _ _ h
    fun _ _ _ _ heq => heq

theorem eligibilityRoot_perm (h : candidates.Perm candidates') :
    eligibilityRoot C candidates = eligibilityRoot C candidates' := by
  have hnil : candidates = [] ↔ candidates' = [] :=
    ⟨fun hn => (hn ▸ h).symm.eq_nil, fun hn => (hn ▸ h).eq_nil⟩
  unfold eligibilityRoot
  simp only [hnil, h.length_eq, sortCandidates_eq_of_perm h]

/-- The strict order of the ids. -/
def Below (a b : CandidateID) : Prop := a.toNat < b.toNat

instance : Trans Below Below Below := ⟨Nat.lt_trans⟩

theorem eligibilityRoot_eq_ok {root : Hash}
    (h : eligibilityRoot C candidates = .ok root) :
    candidates.length < 2 ^ 32 ∧ candidates.Nodup ∧
      root = domainHash C "zephyr/committee/eligibility/v1"
        (eligibilityPayload (sortCandidates candidates)) := by
  simp only [eligibilityRoot, ok_iff, not_or, not_not] at h
  obtain ⟨⟨-, hlen⟩, ⟨-, hchain⟩, rfl⟩ := h
  refine ⟨by omega, (sortCandidates_perm candidates).nodup_iff.1 ?_, rfl⟩
  -- neighbours are sorted and distinct, so all are
  have hsorted : (sortCandidates candidates).Pairwise Bytes32.Before :=
    List.pairwise_insertionSort _ _
  have hstrict : (sortCandidates candidates).IsChain Below := by
    rw [List.isChain_iff_getElem] at hchain ⊢
    intro i hi
    have hle := List.pairwise_iff_getElem.1 hsorted i (i + 1) (by omega) hi
      (Nat.lt_succ_self i)
    exact Nat.lt_of_le_of_ne hle fun heq =>
      hchain i hi (Bytes32.toNat_inj heq)
  exact hstrict.pairwise.imp fun hab heq =>
    Nat.ne_of_lt hab (congrArg Bytes32.toNat heq)

theorem separates_fixed : Separates Writer.fixed fun _ => True := by
  intro a b s t _ _ h
  obtain ⟨hab, hst⟩ := List.append_inj h (by simp)
  exact ⟨Vector.toList_inj.1 hab, hst⟩

theorem eligibilityPayload_inj {xs ys : List CandidateID}
    (hx : xs.length < 2 ^ 32) (hy : ys.length < 2 ^ 32)
    (h : eligibilityPayload xs = eligibilityPayload ys) : xs = ys := by
  obtain ⟨hlen, hrest⟩ := List.append_inj h (by simp)
  have hsame := congrArg UInt32.toNat (Writer.u32_inj hlen)
  rw [UInt32.toNat_ofNat_of_lt' hx, UInt32.toNat_ofNat_of_lt' hy] at hsame
  refine (separates_fixed.flatMap (s := []) (t := []) (fun _ _ => trivial)
    (fun _ _ => trivial) hsame ?_).1
  rw [List.append_nil, List.append_nil]
  exact hrest

/-- The bytes hashed for the root of a candidate list. -/
def eligibilityFrame (candidates : List CandidateID) : Bytes :=
  domainFrame "zephyr/committee/eligibility/v1"
    (eligibilityPayload (sortCandidates candidates))

theorem eligibilityRoot_binding {root : Hash}
    (hinj : Set.InjOn C.sha256
      {eligibilityFrame candidates, eligibilityFrame candidates'})
    (h : eligibilityRoot C candidates = .ok root)
    (h' : eligibilityRoot C candidates' = .ok root) :
    candidates.Perm candidates' := by
  obtain ⟨hlen, -, hroot⟩ := eligibilityRoot_eq_ok h
  obtain ⟨hlen', -, hroot'⟩ := eligibilityRoot_eq_ok h'
  have hframe : eligibilityFrame candidates = eligibilityFrame candidates' :=
    hinj (.inl rfl) (.inr rfl) (hroot.symm.trans hroot')
  have hpayload := (domainFrame_inj (by decide +kernel) (by decide +kernel)
    hframe).2
  have hperm := sortCandidates_perm candidates
  have hperm' := sortCandidates_perm candidates'
  have hsorted := eligibilityPayload_inj (by rwa [hperm.length_eq])
    (by rwa [hperm'.length_eq]) hpayload
  exact hperm.symm.trans (hsorted ▸ hperm')

-- ==== ranking

theorem ranked_key_inj {a b : RankedCandidate} (h : a.key = b.key) :
    a = b := by
  obtain ⟨hrank, hid⟩ := Prod.mk.inj (toLex_inj.1 h)
  cases a
  cases b
  cases Bytes32.toNat_inj hrank
  cases Bytes32.toNat_inj hid
  rfl

theorem ranking_perm (C : Crypto) (inputHash : Hash) (output : Bytes32)
    (candidates : List CandidateID) :
    (ranking C inputHash output candidates).Perm candidates := by
  have h := (List.perm_insertionSort (fun a b => a.key ≤ b.key)
    (candidates.map fun c => (⟨c, rankOf C inputHash output c⟩ :
      RankedCandidate))).map RankedCandidate.id
  rwa [List.map_map, show RankedCandidate.id ∘ _ = id from rfl,
    List.map_id] at h

theorem ranking_eq_of_perm (h : candidates.Perm candidates')
    (inputHash : Hash) (output : Bytes32) :
    ranking C inputHash output candidates =
      ranking C inputHash output candidates' := by
  unfold ranking
  rw [insertionSort_eq_of_key (h.map _) fun _ _ _ _ => ranked_key_inj]

theorem selectUnweighted_eq_ok {input : Input} {verified : VerifiedProof}
    {selected : List CandidateID}
    (h : selectUnweighted C input verified candidates = .ok selected) :
    eligibilityRoot C candidates = .ok input.eligibilityRoot ∧
      input.committeeSize.toNat ≤ candidates.length ∧
      selected = (ranking C verified.inputHash verified.output
        candidates).take input.committeeSize.toNat := by
  simp only [selectUnweighted, ok_iff, not_or, not_not, Nat.not_lt] at h
  obtain ⟨-, _, -, ⟨rfl, -⟩, _, hroot, ⟨rfl, hsize⟩, rfl⟩ := h
  exact ⟨hroot, hsize, rfl⟩

theorem selectUnweighted_perm (h : candidates.Perm candidates')
    (input : Input) (verified : VerifiedProof) :
    selectUnweighted C input verified candidates =
      selectUnweighted C input verified candidates' := by
  unfold selectUnweighted
  simp only [eligibilityRoot_perm h, h.length_eq, ranking_eq_of_perm h]

/-- A committee: as many distinct candidates as asked for, whatever the
order of the list, growing with its size; and a root that commits to the
candidate set. -/
theorem committee_selection (C : Crypto) (candidates : List CandidateID) :
    (∀ input verified selected,
      selectUnweighted C input verified candidates = .ok selected →
      selected.length = input.committeeSize.toNat ∧ selected.Nodup ∧
      (∀ c ∈ selected, c ∈ candidates) ∧
      (∀ candidates', candidates.Perm candidates' →
        selectUnweighted C input verified candidates' = .ok selected) ∧
      ∀ input' verified' selected',
        selectUnweighted C input' verified' candidates = .ok selected' →
        ranking C verified'.inputHash verified'.output candidates =
          ranking C verified.inputHash verified.output candidates →
        input.committeeSize ≤ input'.committeeSize →
        selected <+: selected') ∧
    ∀ candidates',
      (candidates.Perm candidates' →
        eligibilityRoot C candidates = eligibilityRoot C candidates') ∧
      (Set.InjOn C.sha256
          {eligibilityFrame candidates, eligibilityFrame candidates'} →
        ∀ root, eligibilityRoot C candidates = .ok root →
          eligibilityRoot C candidates' = .ok root →
          candidates.Perm candidates') := by
  refine ⟨fun input verified selected h => ?_, fun candidates' =>
    ⟨eligibilityRoot_perm, fun hinj root => eligibilityRoot_binding hinj⟩⟩
  obtain ⟨hroot, hsize, rfl⟩ := selectUnweighted_eq_ok h
  have hperm := ranking_perm C verified.inputHash verified.output candidates
  refine ⟨?_, ?_, fun c hc => ?_, fun candidates' hp => ?_,
    fun input' verified' selected' h' hranking hle => ?_⟩
  · rw [List.length_take, hperm.length_eq]
    omega
  · exact (hperm.nodup_iff.2 (eligibilityRoot_eq_ok hroot).2.1).sublist
      (List.take_sublist _ _)
  · exact hperm.mem_iff.1 (List.mem_of_mem_take hc)
  · rw [← selectUnweighted_perm hp]
    exact h
  · obtain ⟨-, -, rfl⟩ := selectUnweighted_eq_ok h'
    rw [hranking]
    exact ( List.take_prefix_take_left (UInt32.le_iff_toNat_le.1 hle))

end ZephyrChain.Committee
