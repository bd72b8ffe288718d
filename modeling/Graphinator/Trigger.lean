import Graphinator.Latch

/-!
# The maintenance trigger

The delivery that completes the latch of a version is acked before its maintenance starts, and
`start_post_import_maintenance` ignores a trigger while any pass fills the slot. The trigger of a
version is therefore lost when it arrives during the pass of another version. This module shows
such a run, and shows that a version whose trigger never meets that branch keeps its pass:
while its completing delivery is acked and its maintenance is neither stamped nor recorded as
failed, its own pass runs or is still owed by an unsettled delivery.

The argument is about one version `v` at a time. The cache is the subtle part: after a persist
that committed and raised, a signal is stored and not in the cache, so a handler may ack with a
candidate that misses it. The delivery whose persist raised is then still unsettled, and its
redelivery completes the candidate.

## Main definitions

* `Latch.Settled` : `v` is maintained, has a recorded failure, or its pass runs.
* `Latch.Owed` : an unsettled delivery of `v` will come to `start_post_import_maintenance(v)`.
* `Latch.TriggerKept` : the steps that lose no trigger of `v`.

## Main results

* `Latch.trigger_kept` : in runs of such steps no acknowledged trigger of `v` is lost.
* `Latch.trigger_lost` : a run that loses the trigger of the newest version.
-/

namespace Graphinator.Latch

open CompletionStore

/-! ### Deliveries by what they still owe -/

/-- The handler is inside `_record_extraction_signal`, past the latch lock. -/
def Status.HoldsLock : Status → Prop
  | .handling .loading | .handling (.persisting _ _) => True
  | _ => False

/-- The message was handed out, is not settled, and its handler has not published a candidate
since: it will come to `_record_extraction_signal` again. -/
def Status.Pending (delivered : Bool) : Status → Prop
  | .ready => delivered = true
  | .handling .flushing | .handling .lockWait | .handling .loading | .handling .requeueing => True
  | .handling (.persisting _ _) => True
  | _ => False

/-- The handler has published a full candidate and is on its way to
`start_post_import_maintenance`. -/
def Status.Starts : Status → Prop
  | .handling .checking | .handling (.acking true) | .acked (some true) => True
  | _ => False

/-- The handler has decided to ack. -/
def Status.Passed : Status → Prop
  | .handling (.acking _) | .acked _ => True
  | _ => False

/-- The message will be redelivered, or its handler will start maintenance. -/
def Status.Live (delivered : Bool) (st : Status) : Prop := st.Pending delivered ∨ st.Starts

section Definitions

variable (s : State) (v : String)

/-- A pass of `v` fills the slot. -/
def Running : Prop := ∃ pass, s.postImportMaintenanceTask = some pass ∧ pass.version = v

/-- Nothing is owed to `v`: it is maintained, a pass of it recorded its failure, or one runs. -/
def Settled : Prop :=
  s.store.isExtractionMaintained v = true ∨ v ∈ s.recordedFailures ∨ Running s v

/-- Some unsettled delivery of `v`, whose signal is stored, leads to the pass of `v`. -/
def Owed : Prop :=
  ∃ m : Signal, m.version = v ∧ m.dataType ∈ s.stored v ∧ (s.status m).Live (s.delivered m)

/-- The steps that lose no trigger of `v`. There is no restart; and unless `v` is settled already:
its acked trigger does not find the pass of another version in the slot, its `message.ack()` does
not raise after the broker settled it, a delivery of it whose signal is stored is not
dead-lettered (other than the one that completed the latch), and its failed pass records the
failure. -/
def TriggerKept : Action → Prop
  | .restart => False
  | .ackReturns m => m.version = v → s.status m = .acked (some true) →
      Settled s v ∨ s.postImportMaintenanceTask = none
  | .ackRaises m => m.version = v → s.status m = .acked (some true) → Settled s v
  | .requeue m true => m.version = v → m.dataType ∈ s.stored v →
      Settled s v ∨ s.completedBy v = some m
  | .passFails false _ _ => Running s v →
      s.store.isExtractionMaintained v = true ∨ v ∈ s.recordedFailures
  | _ => True

instance : Decidable (Running s v) :=
  match h : s.postImportMaintenanceTask with
  | none => isFalse fun ⟨_, hp, _⟩ => by cases h.symm.trans hp
  | some pass =>
    if hv : pass.version = v then isTrue ⟨pass, h, hv⟩
    else isFalse fun ⟨_, hp, hpv⟩ => hv (Option.some.inj (h.symm.trans hp) ▸ hpv)

instance : Decidable (Settled s v) := inferInstanceAs (Decidable (_ ∨ _ ∨ _))

instance : (a : Action) → Decidable (TriggerKept s v a)
  | .restart => isFalse id
  | .ackReturns _ => inferInstanceAs (Decidable (_ → _ → _ ∨ _))
  | .ackRaises _ => inferInstanceAs (Decidable (_ → _ → Settled s v))
  | .requeue _ true => inferInstanceAs (Decidable (_ → _ → _ ∨ _))
  | .requeue _ false => isTrue trivial
  | .passFails false _ _ => inferInstanceAs (Decidable (_ → _ ∨ _))
  | .passFails true _ _ => isTrue trivial
  | .handOut _ | .flushed .. | .acquire _ | .loaded .. | .commit .. | .persisted ..
  | .maintenanceRead .. | .ackSettles _ | .passStamps .. | .passReturns | .resumeLatest _
  | .resumeSignals _ | .resumeMaintained _ => isTrue trivial

/-- `v` is settled, or the delivery that completed its latch can no longer be acked. -/
def Closed : Prop :=
  Settled s v ∨ ∃ m, s.completedBy v = some m ∧ s.status m = .deadLettered

/-- The invariant of runs that lose no trigger of `v`. -/
structure Kept : Prop where
  lock {m : Signal} : (s.status m).HoldsLock → s.extractionLatchLock = some m
  loading {m : Signal} : s.status m = .handling .loading →
    s.extractionCompleteVersion ≠ some m.version
  /-- Under the lock the cache label decides what the candidate was built from. -/
  candidate {m : Signal} {c : Finset DataType} {b : Bool} : m.version = v →
    s.status m = .handling (.persisting c b) →
      (s.extractionCompleteVersion = some v → c = insert m.dataType s.extractionCompleteSignals) ∧
      (s.extractionCompleteVersion ≠ some v → s.stored v ⊆ c)
  stamped {pass : Pass} : s.postImportMaintenanceTask = some pass → pass.stamped = true →
    s.store.isExtractionMaintained pass.version = true
  completed {m : Signal} : s.completedBy v = some m →
    m.version = v ∧ allDataTypes ⊆ s.stored v
  /-- A stored signal that the cache of `v` misses belongs to an unsettled delivery. -/
  covered : Closed s v ∨ (s.extractionCompleteVersion = some v → ∀ t ∈ s.stored v,
    t ∈ s.extractionCompleteSignals ∨
      ∃ m : Signal, m.version = v ∧ m.dataType = t ∧ (s.status m).Pending (s.delivered m))
  /-- Once the completing delivery is on its way to its ack, the pass of `v` is safe. -/
  kept {m : Signal} : s.completedBy v = some m → (s.status m).Passed → Settled s v ∨ Owed s v

end Definitions

section Steps

variable {s s' : State} {v : String}

theorem Kept.init (h : IsInitial s) : Kept s v := by
  obtain ⟨store, rfl⟩ := h
  exact ⟨nofun, nofun, fun _ => nofun, nofun, nofun, Or.inr nofun, nofun⟩

/-- A step of no handler: it changes the slot and the nodes and leaves the signals alone. -/
theorem Kept.frame (hk : Kept s v) (hstatus : s'.status = s.status)
    (hdelivered : s'.delivered = s.delivered)
    (hcache : s'.extractionCompleteSignals = s.extractionCompleteSignals)
    (hlabel : s'.extractionCompleteVersion = s.extractionCompleteVersion)
    (hlock : s'.extractionLatchLock = s.extractionLatchLock)
    (hcompleted : s'.completedBy = s.completedBy) (hstored : s'.stored = s.stored)
    (hstamped : ∀ pass, s'.postImportMaintenanceTask = some pass → pass.stamped = true →
      s'.store.isExtractionMaintained pass.version = true)
    (hsettled : Settled s v → Settled s' v) : Kept s' v where
  lock {m} := by
    rw [hstatus, hlock]
    exact hk.lock
  loading {m} := by
    rw [hstatus, hlabel]
    exact hk.loading
  candidate {m c b} := by
    rw [hstatus, hlabel, hcache, hstored]
    exact hk.candidate
  stamped {pass} := hstamped pass
  completed {m} := by
    rw [hcompleted, hstored]
    exact hk.completed
  covered := by
    rw [hlabel, hcache, hstored, hstatus, hdelivered, Closed, hstatus, hcompleted]
    exact hk.covered.imp_left (Or.imp_left hsettled)
  kept {m} := by
    rw [hcompleted, hstatus, Owed, hstored, hstatus, hdelivered]
    exact fun hm hp => (hk.kept hm hp).imp_left hsettled

/-- The handler of `m` moves to `st`. For a delivery of `v`, unless `v` is settled, a message that
owed something still owes it, and none decides to ack that is not on its way to the pass. -/
theorem Kept.put (hk : Kept s v) {m : Signal} {st : Status}
    (hlock : st.HoldsLock → s.extractionLatchLock = some m)
    (hloading : st = .handling .loading → s.extractionCompleteVersion ≠ some m.version)
    (hcandidate : ∀ c b, m.version = v → st = .handling (.persisting c b) →
      (s.extractionCompleteVersion = some v → c = insert m.dataType s.extractionCompleteSignals) ∧
      (s.extractionCompleteVersion ≠ some v → s.stored v ⊆ c))
    (hmove : m.version = v → Settled s v ∨
      ((s.status m).Pending (s.delivered m) → st.Pending (s.delivered m)) ∧
      ((s.status m).Live (s.delivered m) → st.Live (s.delivered m)) ∧
      (st.Passed → (s.status m).Passed ∨ st.Live (s.delivered m) ∧ m.dataType ∈ s.stored v) ∧
      s.status m ≠ .deadLettered) :
    Kept (s.put m st) v where
  lock {m'} h := by
    rcases eq_or_ne m' m with rfl | hne
    · rw [put_status_self] at h
      exact hlock h
    · rw [put_status_of_ne hne] at h
      exact hk.lock h
  loading {m'} h := by
    rcases eq_or_ne m' m with rfl | hne
    · rw [put_status_self] at h
      exact hloading h
    · rw [put_status_of_ne hne] at h
      exact hk.loading h
  candidate {m' c b} hv h := by
    rcases eq_or_ne m' m with rfl | hne
    · rw [put_status_self] at h
      exact hcandidate c b hv h
    · rw [put_status_of_ne hne] at h
      exact hk.candidate hv h
  stamped := hk.stamped
  completed := hk.completed
  covered := by
    by_cases hset : Settled s v
    · exact Or.inl (Or.inl hset)
    refine hk.covered.imp ?_ fun hcov hlabel t ht => (hcov hlabel t ht).imp_right ?_
    · rintro (h | ⟨m', hm', hdead⟩)
      · exact Or.inl h
      · refine Or.inr ⟨m', hm', ?_⟩
        rcases eq_or_ne m' m with rfl | hne
        · exact absurd hdead ((hmove (hk.completed hm').1).resolve_left hset).2.2.2
        · rw [put_status_of_ne hne]
          exact hdead
    · rintro ⟨m', hv, htype, hp⟩
      refine ⟨m', hv, htype, ?_⟩
      rcases eq_or_ne m' m with rfl | hne
      · rw [put_status_self]
        exact ((hmove hv).resolve_left hset).1 hp
      · rw [put_status_of_ne hne]
        exact hp
  kept {m'} hm' hp := by
    by_cases hset : Settled s v
    · exact Or.inl hset
    have howed : Owed s v → Owed (s.put m st) v := by
      rintro ⟨m₁, hv, ht, hlive⟩
      refine ⟨m₁, hv, ht, ?_⟩
      rcases eq_or_ne m₁ m with rfl | hne
      · rw [put_status_self]
        exact ((hmove hv).resolve_left hset).2.1 hlive
      · rw [put_status_of_ne hne]
        exact hlive
    refine Or.inr ?_
    rcases eq_or_ne m' m with rfl | hne
    · rw [put_status_self] at hp
      have hv := (hk.completed hm').1
      rcases ((hmove hv).resolve_left hset).2.2.1 hp with hpassed | ⟨hlive, ht⟩
      · exact howed ((hk.kept hm' hpassed).resolve_left hset)
      · exact ⟨m', hv, ht, by rwa [put_status_self]⟩
    · rw [put_status_of_ne hne] at hp
      exact howed ((hk.kept hm' hp).resolve_left hset)

theorem Kept.deliver (hk : Kept s v) {m : Signal} (hready : s.status m = .ready) :
    Kept ((s.deliver m).put m (.handling .flushing)) v := by
  have hd : Kept (s.deliver m) v := by
    have hpending {m' : Signal} : (s.status m').Pending (s.delivered m') →
        (s.status m').Pending ((s.deliver m).delivered m') := by
      rcases eq_or_ne m' m with rfl | hne
      · simp [hready, Status.Pending]
      · simp [hne]
    refine ⟨hk.lock, hk.loading, hk.candidate, hk.stamped, hk.completed, ?_, fun hm hp => ?_⟩
    · refine hk.covered.imp_right fun hcov hlabel t ht => (hcov hlabel t ht).imp_right ?_
      rintro ⟨m', hv, htype, hp⟩
      exact ⟨m', hv, htype, hpending hp⟩
    · refine (hk.kept hm hp).imp_right ?_
      rintro ⟨m', hv, ht, hlive⟩
      exact ⟨m', hv, ht, hlive.imp_left hpending⟩
  refine hd.put nofun nofun (fun _ _ _ => nofun) fun _ => Or.inr ⟨fun _ => trivial, fun _ =>
    Or.inl trivial, nofun, ?_⟩
  simp [hready]

/-- A version whose latch is full has a completing delivery that no commit replaces. -/
theorem completedBy_commitSignals {m m' : Signal} (now : ℕ) (candidate : Finset DataType)
    (hfull : allDataTypes ⊆ s.stored v) (hm : s.completedBy v = some m') :
    (s.commitSignals m now candidate).completedBy v = some m' := by
  rcases eq_or_ne v m.version with rfl | hne
  · simp [hfull, hm]
  · simp only [State.commitSignals_completedBy]
    split_ifs
    · simp [hne, hm]
    · exact hm

theorem Settled.commitSignals (h : Settled s v) (m : Signal) (now : ℕ)
    (candidate : Finset DataType) : Settled (s.commitSignals m now candidate) v :=
  h.imp_left fun hm => isExtractionMaintained_persist hm ..

/-- The persist of the lock holder commits: every signal it adds is in the cache or its own. -/
theorem Kept.commitSignals (hk : Kept s v) {m : Signal} {c : Finset DataType} (now : ℕ)
    (hm : s.status m = .handling (.persisting c false)) :
    Kept (s.commitSignals m now c) v := by
  have hstored : (s.commitSignals m now c).stored m.version = s.stored m.version ∪ c :=
    stored_commitSignals ..
  have hle := stored_subset_commitSignals (s := s) m now c v
  have hlock : s.extractionLatchLock = some m := hk.lock (by rw [hm]; trivial)
  have hstatus : (s.commitSignals m now c).status = s.status := rfl
  refine ⟨hk.lock, hk.loading, fun {m' c' b} hv hm' => ⟨(hk.candidate hv hm').1, fun hne => ?_⟩,
    fun hp hs => isExtractionMaintained_persist (hk.stamped hp hs) .., fun {m'} hm' => ?_, ?_,
    fun {m'} hm' hp => ?_⟩
  · rw [hstatus] at hm'
    obtain rfl : m' = m := Option.some.inj ((hk.lock (by rw [hm']; trivial)).symm.trans hlock)
    obtain rfl : c' = c := by
      rw [hm] at hm'
      cases hm'
      rfl
    rw [← hv, hstored]
    exact Finset.union_subset (hv ▸ (hk.candidate hv hm').2 hne) (Finset.Subset.refl _)
  · rw [State.commitSignals_completedBy] at hm'
    split_ifs at hm' with hnew
    · rcases eq_or_ne v m.version with rfl | hne
      · obtain rfl : m = m' := by simpa using hm'
        exact ⟨rfl, hnew.1⟩
      · rw [Function.update_of_ne hne] at hm'
        exact ⟨(hk.completed hm').1, (hk.completed hm').2.trans hle⟩
    · exact ⟨(hk.completed hm').1, (hk.completed hm').2.trans hle⟩
  · refine hk.covered.imp ?_ fun hcov hlabel t ht => ?_
    · rintro (h | ⟨m', hm', hdead⟩)
      · exact Or.inl (h.commitSignals ..)
      · exact Or.inr ⟨m', completedBy_commitSignals now c (hk.completed hm').2 hm', hdead⟩
    · by_cases hold : t ∈ s.stored v
      · exact hcov hlabel t hold
      have hv : m.version = v := by
        by_contra hne
        exact hold <| by
          rwa [State.stored, State.commitSignals_store,
            loadExtractionSignals_persist_of_ne (Ne.symm hne)] at ht
      have htc : t ∈ c := by
        rw [← hv, hstored, Finset.mem_union, hv] at ht
        exact ht.resolve_left hold
      rw [(hk.candidate hv hm).1 hlabel, Finset.mem_insert] at htc
      rcases htc with rfl | htc
      · exact Or.inr ⟨m, hv, rfl, by
          change (s.status m).Pending _
          rw [hm]
          trivial⟩
      · exact Or.inl htc
  · have hold : s.completedBy v = some m' := by
      rw [State.commitSignals_completedBy] at hm'
      split_ifs at hm' with hnew
      · rcases eq_or_ne v m.version with rfl | hne
        · obtain rfl : m = m' := by simpa using hm'
          change (s.status m).Passed at hp
          rw [hm] at hp
          exact hp.elim
        · rwa [Function.update_of_ne hne] at hm'
      · exact hm'
    refine (hk.kept hold hp).imp (fun h => h.commitSignals ..) ?_
    rintro ⟨m₁, hv, ht, hlive⟩
    exact ⟨m₁, hv, hle ht, hlive⟩

/-- The lock holder publishes its committed candidate. If the candidate is not full although the
stored signals are, the signal it misses is owed by another delivery. -/
theorem Kept.publish (hk : Kept s v) {m : Signal} {c : Finset DataType}
    (hm : s.status m = .handling (.persisting c true)) (ht : m.dataType ∈ c) :
    Kept (((s.setCache m.version c).setLock none).put m
      (.handling (if allDataTypes ⊆ c then .checking else .acking false))) v := by
  set st : Status := .handling (if allDataTypes ⊆ c then .checking else .acking false) with hst
  set s' := ((s.setCache m.version c).setLock none).put m st with hs'
  have hlock : s.extractionLatchLock = some m := hk.lock (by rw [hm]; trivial)
  have hholds : ∀ m' ≠ m, ¬(s.status m').HoldsLock := fun m' hne h =>
    hne (Option.some.inj ((hk.lock h).symm.trans hlock))
  have hself : s'.status m = st := by simp [hs']
  have hother : ∀ m' ≠ m, s'.status m' = s.status m' := fun m' hne => by simp [hs', hne]
  have hnolock : ∀ m', ¬(s'.status m').HoldsLock := fun m' h => by
    rcases eq_or_ne m' m with rfl | hne
    · rw [hself, hst] at h
      split_ifs at h <;> exact h
    · rw [hother m' hne] at h
      exact hholds m' hne h
  have hclosed : Closed s v → Closed s' v := by
    rintro (h | ⟨m', hm', hdead⟩)
    · exact Or.inl h
    · refine Or.inr ⟨m', hm', ?_⟩
      rcases eq_or_ne m' m with rfl | hne
      · rw [hm] at hdead
        cases hdead
      · rwa [hother m' hne]
  -- Off its own version the step only gives up the cache.
  have hcovered : Closed s' v ∨ (m.version = v → ∀ t ∈ s.stored v, t ∈ c ∨
      ∃ m' : Signal, m'.version = v ∧ m'.dataType = t ∧
        (s'.status m').Pending (s'.delivered m')) := by
    refine hk.covered.imp hclosed fun hcov hv t hts => ?_
    by_cases hlabel : s.extractionCompleteVersion = some v
    · rw [(hk.candidate hv hm).1 hlabel]
      rcases hcov hlabel t hts with hc | ⟨m', hv', htype, hp⟩
      · exact Or.inl (Finset.mem_insert_of_mem hc)
      · rcases eq_or_ne m' m with rfl | hne
        · exact Or.inl (htype ▸ Finset.mem_insert_self ..)
        · exact Or.inr ⟨m', hv', htype, by rwa [hother m' hne]⟩
    · exact Or.inl ((hk.candidate hv hm).2 hlabel hts)
  refine ⟨fun h => absurd h (hnolock _), fun {m'} h => absurd (h ▸ trivial) (hnolock m'),
    fun {m' c' b} _ h => absurd (h ▸ trivial) (hnolock m'), hk.stamped, hk.completed,
    hcovered.imp_right fun h hlabel => h (Option.some.inj hlabel), fun {m'} hm' hp => ?_⟩
  by_cases hset : Settled s v
  · exact Or.inl hset
  by_cases hv : m.version = v
  · by_cases hfull : allDataTypes ⊆ c
    · have hchecking : st = .handling .checking := by rw [hst, if_pos hfull]
      have hne : m' ≠ m := by
        rintro rfl
        rw [hself, hchecking] at hp
        exact hp
      rw [hother m' hne] at hp
      obtain ⟨m₁, hv₁, ht₁, hlive⟩ := (hk.kept hm' hp).resolve_left hset
      refine Or.inr ⟨m₁, hv₁, ht₁, ?_⟩
      rcases eq_or_ne m₁ m with rfl | hne₁
      · rw [hself, hchecking]
        exact Or.inr trivial
      · rwa [hother m₁ hne₁]
    · obtain ⟨t, -, htc⟩ := Finset.not_subset.mp hfull
      have hts : t ∈ s.stored v := (hk.completed hm').2 (mem_allDataTypes t)
      rcases hcovered with (h | ⟨m₁, hm₁, hdead⟩) | hcov
      · exact Or.inl h
      · obtain rfl : m' = m₁ := Option.some.inj (hm'.symm.trans hm₁)
        rw [hdead] at hp
        exact hp.elim
      · obtain ⟨m₁, hv₁, rfl, hpend⟩ := (hcov hv t hts).resolve_left htc
        exact Or.inr ⟨m₁, hv₁, hts, Or.inl hpend⟩
  · have hne : ∀ m₁ : Signal, m₁.version = v → m₁ ≠ m := fun m₁ h₁ h => hv (h ▸ h₁)
    rw [hother m' (hne m' (hk.completed hm').1)] at hp
    obtain ⟨m₁, hv₁, ht₁, hlive⟩ := (hk.kept hm' hp).resolve_left hset
    exact Or.inr ⟨m₁, hv₁, ht₁, by rwa [hother m₁ (hne m₁ hv₁)]⟩

/-- A message whose budget is spent is dead-lettered. -/
theorem Kept.deadLetter (hk : Kept s v) {m : Signal} (hm : s.status m = .handling .requeueing)
    (hok : m.version = v → m.dataType ∈ s.stored v → Settled s v ∨ s.completedBy v = some m) :
    Kept (s.put m .deadLettered) v := by
  have hold {m' : Signal} (h : (s.put m .deadLettered).status m' ≠ .deadLettered) :
      (s.put m .deadLettered).status m' = s.status m' :=
    put_status_of_ne (by rintro rfl; exact h (put_status_self ..)) _
  refine ⟨fun {m'} h => ?_, fun {m'} h => ?_, fun {m' c b} hv h => ?_, hk.stamped, hk.completed,
    ?_, fun {m'} hm' hp => ?_⟩
  · rw [hold (fun heq => by rw [heq] at h; exact h)] at h
    exact hk.lock h
  · rw [hold (fun heq => by rw [heq] at h; cases h)] at h
    exact hk.loading h
  · rw [hold (fun heq => by rw [heq] at h; cases h)] at h
    exact hk.candidate hv h
  · rcases hk.covered with (h | ⟨m', hm', hdead⟩) | hcov
    · exact Or.inl (Or.inl h)
    · refine Or.inl (Or.inr ⟨m', hm', ?_⟩)
      rw [put_status_of_ne (by rintro rfl; rw [hm] at hdead; cases hdead), hdead]
    · by_cases hlost : m.version = v ∧ m.dataType ∈ s.stored v
      · exact Or.inl ((hok hlost.1 hlost.2).imp_right fun h => ⟨m, h, put_status_self ..⟩)
      · refine Or.inr fun hlabel t ht => (hcov hlabel t ht).imp_right ?_
        rintro ⟨m', hv, rfl, hp⟩
        exact ⟨m', hv, rfl, by rwa [put_status_of_ne (by rintro rfl; exact hlost ⟨hv, ht⟩)]⟩
  · have heq : (s.put m .deadLettered).status m' = s.status m' :=
      hold fun heq => by rw [heq] at hp; exact hp
    rw [heq] at hp
    refine or_iff_not_imp_left.mpr fun hset => ?_
    obtain ⟨m₁, hv₁, ht₁, hlive⟩ := (hk.kept hm' hp).resolve_left hset
    refine ⟨m₁, hv₁, ht₁, ?_⟩
    rw [put_status_of_ne]
    · exact hlive
    · rintro rfl
      have hcompleted := (hok hv₁ ht₁).resolve_left hset
      obtain rfl : m' = m₁ := Option.some.inj (hm'.symm.trans hcompleted)
      rw [hm] at hp
      exact hp

/-- `start_post_import_maintenance` touches the slot alone, and a free slot takes the pass. -/
theorem Kept.startPostImportMaintenance (hk : Kept s v) (version : String) :
    Kept (s.startPostImportMaintenance version) v := by
  unfold State.startPostImportMaintenance
  split
  · exact hk
  · next hnone =>
    refine hk.frame rfl rfl rfl rfl rfl rfl rfl (fun pass hp hs => ?_) ?_
    · obtain rfl := Option.some.inj hp
      cases hs
    · rintro (h | h | ⟨pass, hp, -⟩)
      · exact Or.inl h
      · exact Or.inr (Or.inl h)
      · rw [hnone] at hp
        cases hp

theorem settled_startPostImportMaintenance
    (h : Settled s v ∨ s.postImportMaintenanceTask = none) :
    Settled (s.startPostImportMaintenance v) v := by
  unfold State.startPostImportMaintenance
  split
  · next pass hp => exact h.resolve_right (by simp [hp])
  · exact Or.inr (Or.inr ⟨_, rfl, rfl⟩)

theorem startPostImportMaintenance_put (m : Signal) (st : Status) (version : String) :
    (s.put m st).startPostImportMaintenance version =
      (s.startPostImportMaintenance version).put m st := by
  cases h : s.postImportMaintenanceTask
  · simp [State.startPostImportMaintenance, h]
    rfl
  · simp [State.startPostImportMaintenance, h]

theorem startPostImportMaintenance_status (version : String) :
    (s.startPostImportMaintenance version).status = s.status := by
  unfold State.startPostImportMaintenance
  split <;> rfl

/-- A pass stamps its version. -/
theorem Kept.stamp (hk : Kept s v) {pass : Pass} {store : CompletionStore} {now sv : ℕ}
    (hp : s.postImportMaintenanceTask = some pass)
    (hs : s.store.stampMaintenanceSuccess now sv pass.version = some store) :
    Kept ((s.setStore store).setTask (some { pass with stamped := true })) v := by
  refine hk.frame rfl rfl rfl rfl rfl rfl
    (funext fun v' => loadExtractionSignals_stampSuccess hs v') (fun pass' hp' _ => ?_) ?_
  · obtain rfl := Option.some.inj hp'
    exact isExtractionMaintained_stampSuccess hs
  · rintro (h | h | ⟨pass', hp', rfl⟩)
    · exact Or.inl (isExtractionMaintained_stampSuccess_of hs h)
    · exact Or.inr (Or.inl h)
    · obtain rfl : pass = pass' := Option.some.inj (hp.symm.trans hp')
      exact Or.inl (isExtractionMaintained_stampSuccess hs)

/-- A pass ends: with a stamp, or with a recorded failure, or it leaves its version concluded. -/
theorem Kept.endPass (hk : Kept s v) {pass : Pass} {store : CompletionStore}
    {failures : List String} (hp : s.postImportMaintenanceTask = some pass)
    (hstored : ∀ v', store.loadExtractionSignals v' = s.stored v')
    (hmono : ∀ v', s.store.isExtractionMaintained v' = true →
      store.isExtractionMaintained v' = true)
    (hfail : s.recordedFailures ⊆ failures)
    (hend : pass.version = v → store.isExtractionMaintained v = true ∨ v ∈ failures) :
    Kept { s with store, postImportMaintenanceTask := none, recordedFailures := failures } v := by
  refine hk.frame rfl rfl rfl rfl rfl rfl (funext hstored) nofun ?_
  rintro (h | h | ⟨pass', hp', hv⟩)
  · exact Or.inl (hmono v h)
  · exact Or.inr (Or.inl (hfail h))
  · obtain rfl : pass = pass' := Option.some.inj (hp.symm.trans hp')
    exact (hend hv).imp_right Or.inl

/-- The lock holder fails and goes to its requeue. -/
theorem Kept.release (hk : Kept s v) {m : Signal} (hm : (s.status m).HoldsLock) :
    Kept ((s.setLock none).put m (.handling .requeueing)) v := by
  have hput : Kept (s.put m (.handling .requeueing)) v := by
    refine hk.put nofun nofun (fun _ _ _ => nofun) fun _ => Or.inr ⟨fun _ => trivial,
      fun _ => Or.inl trivial, nofun, fun hdead => ?_⟩
    rw [hdead] at hm
    exact hm
  refine ⟨fun {m'} h => ?_, hput.loading, hput.candidate, hput.stamped, hput.completed,
    hput.covered, hput.kept⟩
  have h' : ((s.put m (.handling .requeueing)).status m').HoldsLock := h
  obtain rfl : m' = m := Option.some.inj ((hput.lock h').symm.trans (hk.lock hm))
  rw [put_status_self] at h'
  exact h'.elim

/-- Every step that loses no trigger of `v` preserves the invariant. -/
theorem Kept.step {s₀ : State} (hi : Inv s₀ s) (hk : Kept s v) {a : Action}
    (hok : TriggerKept s v a) (h : Latch.step s a = some s') : Kept s' v := by
  cases a with
  | handOut m =>
    simp only [Latch.step, Option.ite_none_right_eq_some, Option.some.injEq] at h
    obtain ⟨hm, rfl⟩ := h
    exact hk.deliver hm
  | flushed m ok =>
    simp only [Latch.step, Option.ite_none_right_eq_some, Option.some.injEq] at h
    obtain ⟨hm, rfl⟩ := h
    refine hk.put ?_ ?_ (fun _ _ _ => ?_) fun _ => Or.inr ⟨?_, ?_, ?_, by simp [hm]⟩ <;>
      cases ok <;> simp [Status.HoldsLock, Status.Pending, Status.Live, Status.Passed]
  | acquire m =>
    simp only [Latch.step, Option.ite_none_right_eq_some, Option.some.injEq] at h
    obtain ⟨⟨hm, hfree⟩, rfl⟩ := h
    have hlocked : Kept (s.setLock (some m)) v := by
      refine ⟨fun {m'} h => ?_, hk.loading, hk.candidate, hk.stamped, hk.completed, hk.covered,
        hk.kept⟩
      exact absurd ((hk.lock h).symm.trans hfree) (by rintro ⟨⟩)
    refine hlocked.put (fun _ => rfl) ?_ ?_ fun _ => Or.inr ⟨?_, ?_, ?_, by simp [hm]⟩
    · split_ifs with hlabel
      · rintro ⟨⟩
      · exact fun _ => hlabel
    · rintro c b rfl hst
      split_ifs at hst with hlabel
      · cases hst
        exact ⟨fun _ => rfl, fun hne => absurd hlabel hne⟩
      · cases hst
    all_goals split_ifs <;> simp [Status.Pending, Status.Live, Status.Passed]
  | loaded m ok =>
    simp only [Latch.step, Option.ite_none_right_eq_some, Option.some.injEq] at h
    obtain ⟨hm, rfl⟩ := h
    have hlock := hk.lock (m := m) (by rw [hm]; trivial)
    cases ok
    · exact hk.release (by rw [hm]; trivial)
    · refine hk.put (fun _ => hlock) (by rintro ⟨⟩) ?_ fun _ => Or.inr ⟨?_, ?_, ?_, by simp [hm]⟩
      · rintro c b rfl hst
        cases hst
        exact ⟨fun hlabel => absurd hlabel (hk.loading hm), fun _ => Finset.subset_insert ..⟩
      all_goals simp [Status.Pending, Status.Live, Status.Passed]
  | commit m now =>
    simp only [Latch.step] at h
    split at h
    next c hm =>
      obtain rfl := Option.some.inj h
      have hc := hk.commitSignals now hm
      have hm' : (s.commitSignals m now c).status m = .handling (.persisting c false) := hm
      refine hc.put (fun _ => hk.lock (by rw [hm]; trivial)) (by rintro ⟨⟩) ?_ fun _ =>
        Or.inr ⟨fun _ => trivial, fun _ => Or.inl trivial, (by rintro ⟨⟩), fun hdead => by cases hm.symm.trans hdead⟩
      rintro c' b hv hst
      cases hst
      exact hc.candidate hv hm'
    next => cases h
  | persisted m ok =>
    simp only [Latch.step] at h
    split at h
    next c committed hm =>
      have hst := hi.status m
      rw [hm] at hst
      cases ok
      · obtain rfl := Option.some.inj h
        exact hk.release (by rw [hm]; trivial)
      · cases committed
        · cases h
        · obtain rfl := Option.some.inj h
          exact hk.publish hm hst.1
    next => cases h
  | maintenanceRead m ok =>
    simp only [Latch.step, Option.ite_none_right_eq_some, Option.some.injEq] at h
    obtain ⟨hm, rfl⟩ := h
    have hst := hi.status m
    rw [hm] at hst
    refine hk.put (by split_ifs <;> rintro ⟨⟩) (by split_ifs <;> rintro ⟨⟩)
      (fun _ _ _ => by split_ifs <;> rintro ⟨⟩) ?_
    rintro rfl
    cases ok
    · exact Or.inr ⟨fun _ => trivial, fun _ => Or.inl trivial, (by rintro ⟨⟩), by simp [hm]⟩
    · cases hmt : s.store.isExtractionMaintained m.version
      · exact Or.inr ⟨by simp [hm, Status.Pending], fun _ => Or.inr trivial,
          fun _ => Or.inr ⟨Or.inr trivial, hst.1⟩, by simp [hm]⟩
      · exact Or.inl (Or.inl hmt)
  | ackSettles m =>
    simp only [Latch.step] at h
    split at h
    next starts hm =>
      obtain rfl := Option.some.inj h
      refine hk.put (by rintro ⟨⟩) (by rintro ⟨⟩) (fun _ _ _ => (by rintro ⟨⟩)) fun _ => Or.inr ⟨?_, ?_, ?_, by simp [hm]⟩
      all_goals cases starts <;> simp [hm, Status.Pending, Status.Live, Status.Passed, Status.Starts]
    next => cases h
  | ackReturns m =>
    simp only [Latch.step] at h
    split at h
    next starts hm =>
      obtain rfl := Option.some.inj h
      cases starts
      · refine hk.put (by rintro ⟨⟩) (by rintro ⟨⟩) (fun _ _ _ => (by rintro ⟨⟩)) fun _ =>
          Or.inr ⟨?_, ?_, fun _ => Or.inl ?_, by simp [hm]⟩
        all_goals simp [hm, Status.Pending, Status.Live, Status.Passed, Status.Starts]
      · rw [if_pos rfl, startPostImportMaintenance_put]
        refine (hk.startPostImportMaintenance m.version).put (by rintro ⟨⟩) (by rintro ⟨⟩) (fun _ _ _ => (by rintro ⟨⟩)) ?_
        rintro rfl
        exact Or.inl (settled_startPostImportMaintenance (hok rfl hm))
    next => cases h
  | ackRaises m =>
    simp only [Latch.step] at h
    split at h
    next starts hm =>
      obtain rfl := Option.some.inj h
      exact hk.put (by rintro ⟨⟩) (by rintro ⟨⟩) (fun _ _ _ => (by rintro ⟨⟩)) fun _ =>
        Or.inr ⟨fun _ => trivial, fun _ => Or.inl trivial, (by rintro ⟨⟩), by simp [hm]⟩
    next starts hm =>
      obtain rfl := Option.some.inj h
      refine hk.put (by rintro ⟨⟩) (by rintro ⟨⟩) (fun _ _ _ => (by rintro ⟨⟩)) fun hv => ?_
      cases starts
      · refine Or.inr ⟨?_, ?_, fun _ => Or.inl ?_, by simp [hm]⟩
        all_goals simp [hm, Status.Pending, Status.Live, Status.Passed, Status.Starts]
      · exact Or.inl (hok hv hm)
    next => cases h
  | requeue m deadLetter =>
    simp only [Latch.step, Option.ite_none_right_eq_some, Option.some.injEq] at h
    obtain ⟨hm, rfl⟩ := h
    have hd : s.delivered m = true := hi.delivered_of_eq hm (by rintro ⟨⟩)
    cases deadLetter
    · exact hk.put (by rintro ⟨⟩) (by rintro ⟨⟩) (fun _ _ _ => (by rintro ⟨⟩)) fun _ =>
        Or.inr ⟨fun _ => hd, fun _ => Or.inl hd, (by rintro ⟨⟩), by simp [hm]⟩
    · exact hk.deadLetter hm hok
  | passStamps now statsVersion =>
    simp only [Latch.step] at h
    split at h
    next pass hp =>
      simp only [Option.ite_none_right_eq_some, Option.map_eq_some_iff] at h
      obtain ⟨-, store, hstore, rfl⟩ := h
      exact hk.stamp hp hstore
    next => cases h
  | passReturns =>
    simp only [Latch.step] at h
    split at h
    next pass hp =>
      simp only [Option.ite_none_right_eq_some, Option.some.injEq] at h
      obtain ⟨hstamped, rfl⟩ := h
      refine hk.endPass hp (fun _ => rfl) (fun _ => id) (List.Subset.refl _) ?_
      rintro rfl
      exact Or.inl (hk.stamped hp hstamped)
    next => cases h
  | passFails recorded now error =>
    simp only [Latch.step] at h
    split at h
    next pass hp =>
      cases recorded
      · obtain rfl := Option.some.inj h
        refine hk.endPass hp (fun _ => rfl) (fun _ => id) (List.Subset.refl _) fun hv => ?_
        exact hok ⟨pass, hp, hv⟩
      · simp only [if_true, Option.ite_none_right_eq_some, Option.some.injEq] at h
        obtain ⟨-, rfl⟩ := h
        refine hk.endPass hp (fun v' => loadExtractionSignals_recordFailure ..)
          (fun v' h => isExtractionMaintained_recordFailure h ..) (List.subset_cons_self ..) ?_
        rintro rfl
        exact Or.inr List.mem_cons_self
    next => cases h
  | resumeLatest answer =>
    simp only [Latch.step, Option.ite_none_right_eq_some] at h
    obtain ⟨-, h⟩ := h
    split at h
    · simp only [Option.ite_none_right_eq_some, Option.some.injEq] at h
      obtain ⟨-, rfl⟩ := h
      exact hk.frame rfl rfl rfl rfl rfl rfl rfl (fun _ => hk.stamped) id
    · obtain rfl := Option.some.inj h
      exact hk.frame rfl rfl rfl rfl rfl rfl rfl (fun _ => hk.stamped) id
  | resumeSignals ok =>
    simp only [Latch.step] at h
    split at h
    · obtain rfl := Option.some.inj h
      exact hk.frame rfl rfl rfl rfl rfl rfl rfl (fun _ => hk.stamped) id
    · cases h
  | resumeMaintained ok =>
    simp only [Latch.step] at h
    split at h
    next version _ =>
      have hres : Kept (s.setResume .finished) v :=
        hk.frame rfl rfl rfl rfl rfl rfl rfl (fun _ => hk.stamped) id
      obtain rfl := Option.some.inj h
      split_ifs
      · exact hres.startPostImportMaintenance version
      · exact hres
    next => cases h
  | restart => exact hok.elim

end Steps

/-- **No acknowledged trigger is lost**, for each version `v`, in runs of steps that satisfy
`TriggerKept v`: once the delivery that completed the latch of `v` is acked, and while `v` carries
no `maintained_at` and no recorded failure, a pass of `v` runs or an unsettled delivery of `v`
still leads to one. -/
theorem trigger_kept {v : String} {s : State}
    (h : machine.ReachableIn (fun s a => TriggerKept s v a) s) {m : Signal}
    (hm : s.completedBy v = some m) {resumes : Option Bool} (hacked : s.status m = .acked resumes)
    (hmaintained : s.store.isExtractionMaintained v = false) (hfailed : v ∉ s.recordedFailures) :
    Running s v ∨ Owed s v := by
  obtain ⟨s₀, hinit, hsteps⟩ := h
  have hinv : Inv s₀ s ∧ Kept s v := by
    refine hsteps.invariant (I := fun t => Inv s₀ t ∧ Kept t v) ⟨Inv.init hinit, Kept.init hinit⟩ ?_
    rintro t a t' hok ⟨hi, hk⟩ hs
    exact ⟨hi.step hs, hk.step hi hok hs⟩
  rcases hinv.2.kept hm (by rw [hacked]; trivial) with (h | h | h) | h
  · rw [hmaintained] at h
    cases h
  · exact absurd h hfailed
  · exact Or.inl h
  · exact Or.inr h

theorem trigger_kept_single_version :
    let m : Signal := { versionField := some "20260701", dataType := .releases }
    ∃ s, s.completedBy "20260701" = some m ∧ s.status m = .acked none ∧
      (Running s "20260701" ∨ Owed s "20260701") := by
  intro m
  let s₀ : State :=
    { store := [{ version := "20260701", signals := some [.artists, .labels, .masters] }] }
  have hrun : (machine.exec (fun s a => TriggerKept s "20260701" a) s₀
      (handlerRun m 7 true true)).any (fun s => s.completedBy "20260701" = some m ∧
        s.status m = .acked none ∧ s.store.isExtractionMaintained "20260701" = false ∧
        s.recordedFailures = []) = true := by decide
  obtain ⟨s, hs, hfinal⟩ := (Option.any_eq_true ..).mp hrun
  obtain ⟨hcompleted, hacked, hmaintained, hfailures⟩ := of_decide_eq_true hfinal
  have hsteps : machine.Steps (fun s a => TriggerKept s "20260701" a) s₀ s :=
    Machine.steps_of_exec (fun _ _ => of_decide_eq_true) hs
  exact ⟨s, hcompleted, hacked, trigger_kept ⟨s₀, ⟨_, rfl⟩, hsteps⟩ hcompleted hacked hmaintained
    (by simp [hfailures])⟩

/-! ### A lost trigger -/

def signal (version : String) (t : DataType) : Signal :=
  { versionField := some version, dataType := t }

/-- The four signals of a version, each handled to its end before the next is handed out. -/
def fourSignals (version : String) (now : ℕ) : List Action :=
  handlerRun (signal version .artists) now true false ++
    handlerRun (signal version .labels) now false false ++
    handlerRun (signal version .masters) now false false ++
    handlerRun (signal version .releases) now false true

/-- The actions that hand out only signals of two dumps, and do not restart. -/
def twoDumps : Action → Bool
  | .handOut m => m.copy = 0 ∧ (m.versionField = some "20260701" ∨ m.versionField = some "20260801")
  | .restart => false
  | _ => true

/-- The newer dump completes while the maintenance of the older one runs. Its completing delivery
is acked, and then no pass of it runs, none is owed, and no delivery of it is left. -/
theorem trigger_lost :
    ∃ s m, machine.ReachableIn (fun _ a => a ≠ .restart) s ∧
      s.store.IsLatestExtraction m.version ∧ s.completedBy m.version = some m ∧
      s.status m = .acked none ∧ s.store.isExtractionMaintained m.version = false ∧
      m.version ∉ s.recordedFailures ∧ ¬(Running s m.version ∨ Owed s m.version) := by
  let s₀ : State := { store := [] }
  let m := signal "20260801" .releases
  have hrun : (machine.exec (fun _ a => twoDumps a) s₀
      (fourSignals "20260701" 1 ++ fourSignals "20260801" 2)).any (fun s =>
        s.store.IsLatestExtraction m.version ∧ s.completedBy m.version = some m ∧
        s.status m = .acked none ∧ s.store.isExtractionMaintained m.version = false ∧
        s.recordedFailures = [] ∧ ¬Running s m.version ∧
        ∀ t, s.status (signal "20260801" t) = .acked none) = true := by decide
  obtain ⟨s, hs, hfinal⟩ := (Option.any_eq_true ..).mp hrun
  obtain ⟨hlatest, hcompleted, hacked, hmaintained, hfailures, hslot, hall⟩ :=
    of_decide_eq_true hfinal
  have hsteps : machine.Steps (fun _ a => twoDumps a = true) s₀ s :=
    Machine.steps_of_exec (fun _ _ => id) hs
  have hinit : machine.init s₀ := ⟨_, rfl⟩
  have hi : Inv s₀ s := Inv.of_steps hinit (hsteps.weaken fun _ _ _ => trivial)
  have hdelivered : ∀ m', s.delivered m' = true → twoDumps (.handOut m') = true := by
    refine hsteps.invariant
      (I := fun t => ∀ m', t.delivered m' = true → twoDumps (.handOut m') = true) nofun ?_
    intro t a t' hok ih hstep m' hd
    rcases step_delivered hstep hd with hd | rfl
    · exact ih m' hd
    · exact hok
  refine ⟨s, m, ⟨s₀, hinit, hsteps.weaken ?_⟩, hlatest, hcompleted, hacked, hmaintained,
    by simp [hfailures], ?_⟩
  · rintro t a hok rfl
    cases hok
  · rintro (hrunning | ⟨m', hv, -, hlive⟩)
    · exact hslot hrunning
    have hd : s.delivered m' = true := by
      by_cases hready : s.status m' = .ready
      · rw [hready] at hlive
        exact hlive.elim id False.elim
      · exact hi.delivered hready
    obtain ⟨versionField, t, copy⟩ := m'
    obtain ⟨rfl, rfl | rfl⟩ := of_decide_eq_true (hdelivered _ hd)
    · exact absurd (show "20260701" = "20260801" from hv) (by decide)
    · have hst := hall t
      rw [signal] at hst
      rw [hst] at hlive
      exact hlive.elim id id

end Graphinator.Latch
