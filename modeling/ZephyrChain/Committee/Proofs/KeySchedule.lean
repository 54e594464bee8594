/-
Key schedules name one key for every height.

The loop compares each epoch with the one before it only. But `Next`,
what it asks of two neighbours, is transitive: an epoch ends before the
next one starts, and later ones start later still. So it holds of any two
epochs in the sorted order, and no two intervals share a height
(`key_schedules_unambiguous`).
-/
import ZephyrChain.Committee
import ZephyrChain.Lib.ExactReader
import ZephyrChain.Lib.SortBy

namespace ZephyrChain.Committee

open Lib

variable {C : Crypto} {compressed : PublicKey → Bool}
  {epochs epochs' ordered : List VRFKeyEpoch} {lead : UInt64}

/-- The first epoch ends before the second starts. -/
def Next (a b : VRFKeyEpoch) : Prop :=
  a.inactiveFromHeight ≠ 0 ∧
    a.inactiveFromHeight.toNat ≤ b.activeFromHeight.toNat ∧
    a.activeFromHeight.toNat < b.activeFromHeight.toNat

instance : Trans Next Next Next :=
  ⟨fun h h' => ⟨h.1, Nat.le_trans h.2.1 (Nat.le_of_lt h'.2.2),
    Nat.lt_trans h.2.2 h'.2.2⟩⟩

/-- The two intervals share no height. -/
def Apart (a b : VRFKeyEpoch) : Prop :=
  ∀ height, ¬ (a.ActiveAt height ∧ b.ActiveAt height)

instance : Std.Symm Apart := ⟨fun _ _ h height hba => h height hba.symm⟩

theorem Next.apart {a b : VRFKeyEpoch} (h : Next a b) : Apart a b := by
  rintro height ⟨⟨-, hend⟩, hstart, -⟩
  rcases hend with hend | hend
  · exact h.1 hend
  · rw [UInt64.lt_iff_toNat_lt] at hend
    rw [UInt64.le_iff_toNat_le] at hstart
    exact Nat.lt_irrefl _ (Nat.lt_of_lt_of_le hend (h.2.1.trans hstart))

/-- What is checked of one epoch alone. -/
structure Sound (compressed : PublicKey → Bool) (first : VRFKeyEpoch)
    (lead : UInt64) (e : VRFKeyEpoch) : Prop where
  valid : e.validate compressed = .ok ()
  network : e.network = first.network
  producer : e.producer = first.producer
  lead : e.registrationHeight.toNat + lead.toNat ≤ e.activeFromHeight.toNat

-- ==== the loop

theorem checkEpochs_eq_ok {first : VRFKeyEpoch} {i : Nat}
    {prior : Option VRFKeyEpoch} {seen : List PublicKey}
    (h : checkEpochs C compressed first lead ordered i prior seen =
      .ok ()) :
    (∀ e ∈ ordered, Sound compressed first lead e) ∧
    ordered.map VRFKeyEpoch.sequence =
      (List.range' i ordered.length).map (fun n => UInt64.ofNat n + 1) ∧
    (prior.toList ++ ordered).IsChain Next := by
  induction ordered generalizing i prior seen with
  | nil =>
    refine ⟨fun e he => by (cases he), rfl, ?_⟩
    cases prior with
    | none => exact List.isChain_nil
    | some p => exact List.isChain_singleton p
  | cons e ordered ih =>
    simp only [checkEpochs, ok_iff, not_or, not_not] at h
    obtain ⟨hvalid, ⟨hnet, hprod, hlead, hseq⟩, -, hprior, hrest⟩ := h
    obtain ⟨hsound, hsequence, hchain⟩ := ih hrest
    refine ⟨List.forall_mem_cons.2 ⟨⟨hvalid, hnet, hprod, ?_⟩, hsound⟩,
      ?_, ?_⟩
    · have hv := hvalid
      simp only [VRFKeyEpoch.validate, ok_iff, not_or, UInt64.not_le] at hv
      have hreg := UInt64.lt_iff_toNat_lt.1 hv.1.2.2.2.2.1
      rw [UInt64.not_lt, UInt64.le_iff_toNat_le, UInt64.toNat_sub_of_le _ _
        (UInt64.le_iff_toNat_le.2 (Nat.le_of_lt hreg))] at hlead
      omega
    · rw [List.map_cons, hseq, hsequence, List.length_cons,
        List.range'_succ, List.map_cons]
    · cases prior with
      | none => exact hchain
      | some p =>
        simp only [checkPrior, ok_iff, not_or, UInt64.not_le,
          UInt64.not_lt] at hprior
        obtain ⟨_, -, -, -, hactive, hinactive, hend⟩ := hprior
        exact List.isChain_cons_cons.2 ⟨⟨hinactive,
          UInt64.le_iff_toNat_le.1 hend,
          UInt64.lt_iff_toNat_lt.1 hactive⟩, hchain⟩

theorem sortEpochs_perm (epochs : List VRFKeyEpoch) :
    (sortEpochs epochs).Perm epochs :=
  List.perm_insertionSort _ _

/-- What an accepted schedule is. -/
theorem checked_eq_ok
    (h : checkedVRFKeyEpochs C compressed epochs lead = .ok ordered) :
    ordered = sortEpochs epochs ∧ epochs.length < 2 ^ 32 ∧
      (∃ first, ordered.head? = some first ∧
        ∀ e ∈ epochs, Sound compressed first lead e) ∧
      (epochs.map VRFKeyEpoch.sequence).Nodup ∧ ordered.Pairwise Next := by
  simp only [checkedVRFKeyEpochs, ok_iff, not_or] at h
  obtain ⟨⟨-, -, hlen⟩, first, hfirst, hcheck, rfl⟩ := h
  obtain ⟨hsound, hsequence, hchain⟩ := checkEpochs_eq_ok hcheck
  have hperm := sortEpochs_perm epochs
  refine ⟨rfl, by omega, ⟨first, hfirst, fun e he =>
    hsound e (hperm.mem_iff.2 he)⟩, ?_, hchain.pairwise⟩
  rw [← (hperm.map _).nodup_iff, hsequence]
  refine List.Nodup.map_on (fun a ha b hb hab => ?_) List.nodup_range'
  rw [List.mem_range'_1, hperm.length_eq] at ha hb
  have hnat := congrArg UInt64.toNat ((UInt64.add_left_inj 1).1 hab)
  rwa [UInt64.toNat_ofNat_of_lt' (by show a < 2 ^ 64; omega),
    UInt64.toNat_ofNat_of_lt' (by show b < 2 ^ 64; omega)] at hnat

theorem checked_perm (hperm : epochs.Perm epochs')
    (h : checkedVRFKeyEpochs C compressed epochs lead = .ok ordered) :
    checkedVRFKeyEpochs C compressed epochs' lead = .ok ordered := by
  obtain ⟨-, -, -, hnodup, -⟩ := checked_eq_ok h
  have hsorted : sortEpochs epochs = sortEpochs epochs' :=
    insertionSort_eq_of_perm hperm hnodup
  have hnil : epochs = [] ↔ epochs' = [] :=
    ⟨fun hn => (hn ▸ hperm).symm.eq_nil, fun hn => (hn ▸ hperm).eq_nil⟩
  unfold checkedVRFKeyEpochs at h ⊢
  rwa [hsorted, hperm.length_eq, refuse_congr _ (by rw [hnil])] at h

-- ==== lookup

theorem checkAtInput_iff
    (h : checkedVRFKeyEpochs C compressed epochs lead = .ok ordered)
    (input : Input) (producer : AccountID) (e : VRFKeyEpoch) :
    checkVRFKeyScheduleAtInput C compressed input producer epochs lead =
        .ok e ↔
      input.validate = .ok () ∧ ¬ IsZero32 producer ∧
      (∀ x ∈ epochs, x.network = input.network ∧ x.producer = producer) ∧
      (∀ x ∈ epochs, x.registrationHeight ≤ input.finalizedHeight) ∧
      e ∈ epochs ∧ e.ActiveAt input.finalizedHeight ∧
      vrfPublicKeyHash C e.publicKey = input.vrfKeyHash := by
  obtain ⟨rfl, -, ⟨first, hfirst, hsound⟩, -, hpairwise⟩ := checked_eq_ok h
  have hperm := sortEpochs_perm epochs
  have hmem : first ∈ epochs :=
    hperm.mem_iff.1 (List.mem_of_mem_head? hfirst)
  have howner : (first.network = input.network ∧
      first.producer = producer) ↔
        ∀ x ∈ epochs, x.network = input.network ∧ x.producer = producer := by
    refine ⟨fun hf x hx => ?_, fun hall => hall first hmem⟩
    rw [(hsound x hx).network, (hsound x hx).producer]
    exact hf
  have hregistered : (¬ ∃ x ∈ sortEpochs epochs,
      input.finalizedHeight < x.registrationHeight) ↔
        ∀ x ∈ epochs, x.registrationHeight ≤ input.finalizedHeight := by
    simp only [not_exists, not_and, UInt64.not_lt, hperm.mem_iff]
  -- at most one epoch is active, so the first one found is the only one
  have hfind : ∀ e, (sortEpochs epochs).find? (fun x =>
      decide (x.ActiveAt input.finalizedHeight)) = some e ↔
        e ∈ epochs ∧ e.ActiveAt input.finalizedHeight := by
    intro e
    constructor
    · intro hf
      have hactive := List.find?_some hf
      exact ⟨hperm.mem_iff.1 (List.mem_of_find?_eq_some hf),
        of_decide_eq_true hactive⟩
    · rintro ⟨hin, hactive⟩
      obtain ⟨pre, post, hsplit⟩ :=
        List.append_of_mem (hperm.mem_iff.2 hin)
      rw [hsplit] at hpairwise ⊢
      rw [List.find?_append, List.find?_eq_none.2, Option.none_or]
      · exact List.find?_cons_of_pos (decide_eq_true hactive)
      intro x hx hx'
      exact ((List.pairwise_append.1 hpairwise).2.2 x hx e
        List.mem_cons_self).apart _ ⟨of_decide_eq_true hx', hactive⟩
  simp only [checkVRFKeyScheduleAtInput, ok_iff, not_or, not_not, h,
    Except.ok.injEq, exists_eq_left', hfirst, Option.some.injEq, howner,
    hregistered, hfind]
  constructor
  · rintro ⟨hinput, hproducer, hall, hreg, _, ⟨hin, hactive⟩, hkey, rfl⟩
    exact ⟨hinput, hproducer, hall, hreg, hin, hactive, hkey⟩
  · rintro ⟨hinput, hproducer, hall, hreg, hin, hactive, hkey⟩
    exact ⟨hinput, hproducer, hall, hreg, e, ⟨hin, hactive⟩, hkey, rfl⟩

-- ==== commitment

theorem length_encode (e : VRFKeyEpoch) : e.encode.length = 163 := by
  simp [VRFKeyEpoch.encode]

theorem encode_inj {a b : VRFKeyEpoch} (h : a.encode = b.encode) :
    a = b := by
  simp only [VRFKeyEpoch.encode, List.append_assoc] at h
  obtain ⟨-, h⟩ := List.append_inj h rfl
  obtain ⟨hnetwork, h⟩ := List.append_inj h (by simp)
  obtain ⟨hproducer, h⟩ := List.append_inj h (by simp)
  obtain ⟨hkey, h⟩ := List.append_inj h (by simp)
  obtain ⟨hsequence, h⟩ := List.append_inj h (by simp)
  obtain ⟨hregistration, h⟩ := List.append_inj h (by simp)
  obtain ⟨hactive, h⟩ := List.append_inj h (by simp)
  obtain ⟨hinactive, hprevious⟩ := List.append_inj h (by simp)
  cases a
  cases b
  cases Vector.toList_inj.1 hnetwork
  cases Vector.toList_inj.1 hproducer
  cases Vector.toList_inj.1 hkey
  cases Writer.u64_inj hsequence
  cases Writer.u64_inj hregistration
  cases Writer.u64_inj hactive
  cases Writer.u64_inj hinactive
  cases Vector.toList_inj.1 hprevious
  rfl

theorem separates_epochs :
    Separates (fun e : VRFKeyEpoch => Writer.bytes e.encode)
      fun _ => True := by
  intro a b s t _ _ h
  obtain ⟨hab, hst⟩ := Writer.bytes_append_inj
    (by rw [length_encode]; decide) (by rw [length_encode]; decide) h
  exact ⟨encode_inj hab, hst⟩

theorem schedulePayload_inj {xs ys : List VRFKeyEpoch} {a b : UInt64}
    (hx : xs.length < 2 ^ 32) (hy : ys.length < 2 ^ 32)
    (h : schedulePayload xs a = schedulePayload ys b) : a = b ∧ xs = ys := by
  simp only [schedulePayload, List.append_assoc] at h
  obtain ⟨-, h⟩ := List.append_inj h rfl
  obtain ⟨hlead, h⟩ := List.append_inj h (by simp)
  obtain ⟨hlen, h⟩ := List.append_inj h (by simp)
  have hsame := congrArg UInt32.toNat (Writer.u32_inj hlen)
  rw [UInt32.toNat_ofNat_of_lt' hx, UInt32.toNat_ofNat_of_lt' hy] at hsame
  refine ⟨Writer.u64_inj hlead, (separates_epochs.flatMap (s := []) (t := [])
    (fun _ _ => trivial) (fun _ _ => trivial) hsame ?_).1⟩
  rw [List.append_nil, List.append_nil]
  exact h

/-- The bytes hashed for the commitment of a schedule. -/
def scheduleFrame (epochs : List VRFKeyEpoch) (lead : UInt64) : Bytes :=
  domainFrame "zephyr/committee/vrf-key-schedule/v1"
    (schedulePayload (sortEpochs epochs) lead)

theorem commitment_binding {lead' : UInt64} {root : Hash}
    (hinj : Set.InjOn C.sha256
      {scheduleFrame epochs lead, scheduleFrame epochs' lead'})
    (h : vrfKeyScheduleCommitment C compressed epochs lead = .ok root)
    (h' : vrfKeyScheduleCommitment C compressed epochs' lead' = .ok root) :
    lead = lead' ∧ epochs.Perm epochs' := by
  simp only [vrfKeyScheduleCommitment, ok_iff] at h h'
  obtain ⟨_, h, hroot⟩ := h
  obtain ⟨_, h', hroot'⟩ := h'
  obtain ⟨rfl, hlen, -⟩ := checked_eq_ok h
  obtain ⟨rfl, hlen', -⟩ := checked_eq_ok h'
  have hperm := sortEpochs_perm epochs
  have hperm' := sortEpochs_perm epochs'
  have hframe : scheduleFrame epochs lead = scheduleFrame epochs' lead' :=
    hinj (.inl rfl) (.inr rfl) (hroot.trans hroot'.symm)
  obtain ⟨hlead, hsorted⟩ := schedulePayload_inj
    (by rwa [hperm.length_eq]) (by rwa [hperm'.length_eq])
    (domainFrame_inj (by decide +kernel) (by decide +kernel) hframe).2
  exact ⟨hlead, hperm.symm.trans (hsorted ▸ hperm')⟩

/-- A schedule that is accepted has disjoint intervals and lead times; at
an input exactly its active epoch with the input's key is found, and its
commitment is that of the set of epochs. -/
theorem key_schedules_unambiguous (C : Crypto)
    (compressed : PublicKey → Bool) (epochs ordered : List VRFKeyEpoch)
    (lead : UInt64)
    (h : checkedVRFKeyEpochs C compressed epochs lead = .ok ordered) :
    epochs.Pairwise Apart ∧
    (∀ e ∈ epochs, e.registrationHeight.toNat + lead.toNat ≤
      e.activeFromHeight.toNat) ∧
    (∀ height, ∀ a ∈ epochs, ∀ b ∈ epochs, a.ActiveAt height →
      b.ActiveAt height → a = b) ∧
    (∀ input producer epochs' e, epochs.Perm epochs' →
      (checkVRFKeyScheduleAtInput C compressed input producer epochs' lead =
          .ok e ↔
        input.validate = .ok () ∧ ¬ IsZero32 producer ∧
        (∀ x ∈ epochs, x.network = input.network ∧
          x.producer = producer) ∧
        (∀ x ∈ epochs, x.registrationHeight ≤ input.finalizedHeight) ∧
        e ∈ epochs ∧ e.ActiveAt input.finalizedHeight ∧
        vrfPublicKeyHash C e.publicKey = input.vrfKeyHash)) ∧
    (∀ epochs', epochs.Perm epochs' →
      vrfKeyScheduleCommitment C compressed epochs' lead =
        vrfKeyScheduleCommitment C compressed epochs lead) ∧
    ∀ epochs' lead' root,
      Set.InjOn C.sha256
        {scheduleFrame epochs lead, scheduleFrame epochs' lead'} →
      vrfKeyScheduleCommitment C compressed epochs lead = .ok root →
      vrfKeyScheduleCommitment C compressed epochs' lead' = .ok root →
      lead = lead' ∧ epochs.Perm epochs' := by
  obtain ⟨hordered, -, ⟨first, -, hsound⟩, -, hnext⟩ := checked_eq_ok h
  have hperm : ordered.Perm epochs := hordered ▸ sortEpochs_perm epochs
  have hapart : epochs.Pairwise Apart :=
    (List.Perm.pairwise_iff (Std.Symm.symm _ _) hperm).1
      (hnext.imp Next.apart)
  refine ⟨hapart, fun e he => (hsound e he).lead,
    fun height a ha b hb hactive hactive' => ?_,
    fun input producer epochs' e hp => ?_, fun epochs' hp => ?_,
    fun _ _ _ => commitment_binding⟩
  · by_contra hne
    exact hapart.forall ha hb hne height ⟨hactive, hactive'⟩
  · rw [checkAtInput_iff (checked_perm hp h)]
    simp only [hp.mem_iff]
  · unfold vrfKeyScheduleCommitment
    rw [h, checked_perm hp h]

-- ==== a rotation

/-- A hash that is always the same. -/
def constantCrypto : Crypto :=
  ⟨fun _ => Vector.replicate 32 4, fun _ => false, fun _ _ _ _ => false⟩

def keyEpoch (key : UInt8) (sequence registered active inactive : UInt64)
    (previous : UInt8) : VRFKeyEpoch :=
  ⟨Vector.replicate 32 1, Vector.replicate 32 2, Vector.replicate 33 key,
    sequence, registered, active, inactive, Vector.replicate 32 previous⟩

/-- One key from height 5 to 9, the next from height 10 on. -/
def rotation : List VRFKeyEpoch :=
  [keyEpoch 2 2 6 10 0 4, keyEpoch 1 1 1 5 9 0]

theorem key_schedules_rotation :
    (∃ ordered, checkedVRFKeyEpochs constantCrypto (fun _ => true) rotation
      3 = .ok ordered) ∧ rotation.Pairwise Apart := by
  have hok : (checkedVRFKeyEpochs constantCrypto (fun _ => true) rotation
      3).isOk = true := by
    decide +kernel
  obtain ⟨ordered, h⟩ := exists_of_isOk hok
  exact ⟨⟨ordered, h⟩, (key_schedules_unambiguous _ _ _ ordered 3 h).1⟩

end ZephyrChain.Committee
