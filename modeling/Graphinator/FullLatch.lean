import Graphinator.Latch

/-!
# Passes over a full latch

A pass is started by the handler that brings a version its last signal, or by the process that
finds a full latch when it starts. Signals are never taken away, so the latch of a version is full
for as long as a pass of it runs.

## Main definitions

* `Latch.Full` : the pass in the slot, and the one about to start, have a full latch.

## Main results

* `Latch.Full.step` : every step keeps this.
* `Latch.mem_stored_step` : a signal is stored by its own handler.
* `Latch.status_of_ne` : a handler moves its own message.
-/

namespace Graphinator.Latch

/-- The signal whose handler takes a step. -/
def Action.signal? : Action → Option Signal
  | .handOut m | .flushed m _ | .acquire m | .loaded m _ | .commit m _ | .persisted m _
  | .maintenanceRead m _ | .ackSettles m | .ackReturns m | .ackRaises m | .requeue m _ => some m
  | .passStamps .. | .passReturns | .passFails .. | .resumeLatest _ | .resumeSignals _
  | .resumeMaintained _ | .restart => none

/-- The pass in the slot, and the one that a resume is about to start, have a full latch. -/
structure Full (s : State) : Prop where
  task {pass : Pass} : s.postImportMaintenanceTask = some pass →
    allDataTypes ⊆ s.stored pass.version
  resume {version : String} : s.resume = .gotSignals version → allDataTypes ⊆ s.stored version

variable {s₀ s s' : State} {a : Action} {m : Signal}

theorem startPostImportMaintenance_task {version : String} {pass : Pass}
    (h : (s.startPostImportMaintenance version).postImportMaintenanceTask = some pass) :
    s.postImportMaintenanceTask = some pass ∨ pass.version = version := by
  unfold State.startPostImportMaintenance at h
  split at h
  · exact Or.inl h
  · obtain rfl := Option.some.inj h
    exact Or.inr rfl

/-- A pass is in the slot since before, or it is started over what the latch holds. -/
theorem task_step (h : Latch.step s a = some s') {pass : Pass}
    (ht : s'.postImportMaintenanceTask = some pass) :
    (∃ before, s.postImportMaintenanceTask = some before ∧ before.version = pass.version) ∨
      startsMaintenance s a = some pass.version ∨ s.resume = .gotSignals pass.version := by
  cases a with
  | ackReturns m =>
    simp only [Latch.step] at h
    split at h
    · next starts hm =>
      obtain rfl := Option.some.inj h
      cases starts with
      | true =>
        rcases startPostImportMaintenance_task ht with ht | hv
        · exact Or.inl ⟨pass, ht, rfl⟩
        · exact Or.inr (Or.inl (by rw [startsMaintenance, if_pos hm, hv]))
      | false => exact Or.inl ⟨pass, ht, rfl⟩
    · cases h
  | passStamps now statsVersion =>
    simp only [Latch.step] at h
    split at h
    · next before hbefore =>
      simp only [Option.ite_none_right_eq_some, Option.map_eq_some_iff] at h
      obtain ⟨-, store, -, rfl⟩ := h
      obtain rfl := Option.some.inj ht
      exact Or.inl ⟨before, hbefore, rfl⟩
    · cases h
  | resumeMaintained ok =>
    simp only [Latch.step] at h
    split at h
    · next version hresume =>
      obtain rfl := Option.some.inj h
      split_ifs at ht
      · rcases startPostImportMaintenance_task ht with ht | hv
        · exact Or.inl ⟨pass, ht, rfl⟩
        · exact Or.inr (Or.inr (hv ▸ hresume))
      · exact Or.inl ⟨pass, ht, rfl⟩
    · cases h
  | _ =>
    left
    simp only [Latch.step] at h
    repeat' split at h
    all_goals first
      | cases h
        done
      | obtain rfl := Option.some.inj h
        first
          | exact ⟨pass, ht, rfl⟩
          | cases ht

theorem startPostImportMaintenance_resume (version : String) :
    (s.startPostImportMaintenance version).resume = s.resume := by
  unfold State.startPostImportMaintenance
  split <;> rfl

/-- A resume goes on with the signals of a full latch. -/
theorem resume_step (h : Latch.step s a = some s') {version : String}
    (hr : s'.resume = .gotSignals version) :
    s.resume = .gotSignals version ∨ allDataTypes ⊆ s.stored version := by
  cases a with
  | ackReturns m =>
    simp only [Latch.step] at h
    split at h
    · next starts hm =>
      obtain rfl := Option.some.inj h
      cases starts with
      | true =>
        rw [if_pos rfl, startPostImportMaintenance_resume] at hr
        exact Or.inl hr
      | false => exact Or.inl hr
    · cases h
  | resumeSignals ok =>
    simp only [Latch.step] at h
    split at h
    · next latest hlatest =>
      obtain rfl := Option.some.inj h
      split_ifs at hr with hfull
      · cases hr
        exact Or.inr hfull.2
      · cases hr
    · cases h
  | resumeMaintained ok =>
    simp only [Latch.step] at h
    split at h
    · obtain rfl := Option.some.inj h
      split_ifs at hr
      · rw [startPostImportMaintenance_resume] at hr
        cases hr
      · cases hr
    · cases h
  | passStamps now statsVersion =>
    simp only [Latch.step] at h
    split at h
    · simp only [Option.ite_none_right_eq_some, Option.map_eq_some_iff] at h
      obtain ⟨-, store, -, rfl⟩ := h
      exact Or.inl hr
    · cases h
  | _ =>
    left
    simp only [Latch.step] at h
    repeat' split at h
    all_goals first
      | cases h
        done
      | obtain rfl := Option.some.inj h
        first
          | exact hr
          | cases hr

/-- **A pass runs over a full latch only.** -/
theorem Full.step (hf : Full s) (hi : Inv s₀ s) (h : Latch.step s a = some s') : Full s' where
  task {pass} ht := by
    refine Finset.Subset.trans ?_ (stored_subset_step h pass.version)
    rcases task_step h ht with ⟨before, hbefore, hv⟩ | hstarts | hresume
    · exact hv ▸ hf.task hbefore
    · cases a with
      | ackReturns m =>
        simp only [startsMaintenance, Option.ite_none_right_eq_some, Option.some.injEq] at hstarts
        obtain ⟨hm, hv⟩ := hstarts
        have hok := hi.status m
        rw [hm] at hok
        exact hv ▸ hok.2 rfl
      | _ => cases hstarts
    · exact hf.resume hresume
  resume {version} hr :=
    Finset.Subset.trans ((resume_step h hr).elim hf.resume id) (stored_subset_step h version)

/-- A signal is stored since before, or its handler stores it now. -/
theorem mem_stored_step (hi : Inv s₀ s) (h : Latch.step s a = some s') {version : String}
    {t : DataType} (ht : t ∈ s'.stored version) : t ∈ s.stored version ∨
      ∃ m candidate, a.signal? = some m ∧ m.version = version ∧ m.dataType = t ∧
        s.status m = .handling (.persisting candidate false) := by
  cases a with
  | commit m now =>
    simp only [Latch.step] at h
    split at h
    · next candidate hm =>
      obtain rfl := Option.some.inj h
      rcases eq_or_ne version m.version with rfl | hne
      · have hok := hi.status m
        rw [hm] at hok
        rw [stored_put, stored_commitSignals, Finset.mem_union] at ht
        rcases ht with ht | ht
        · exact Or.inl ht
        · rcases Finset.mem_insert.mp (hok.2.1 ht) with rfl | ht
          · exact Or.inr ⟨m, candidate, rfl, rfl, rfl, hm⟩
          · exact Or.inl ht
      · left
        have heq : (s.commitSignals m now candidate).stored version = s.stored version :=
          CompletionStore.loadExtractionSignals_persist_of_ne hne ..
        rwa [stored_put, heq] at ht
    · cases h
  | passStamps now statsVersion =>
    left
    simp only [Latch.step] at h
    split at h
    · simp only [Option.ite_none_right_eq_some, Option.map_eq_some_iff] at h
      obtain ⟨-, store, hstore, rfl⟩ := h
      change t ∈ store.loadExtractionSignals version at ht
      rwa [CompletionStore.loadExtractionSignals_stampSuccess hstore] at ht
    · cases h
  | passFails recorded now error =>
    left
    simp only [Latch.step] at h
    split at h
    · split_ifs at h <;> obtain rfl := Option.some.inj h
      · change t ∈
          (s.store.recordMaintenanceFailure now _ error).loadExtractionSignals version at ht
        rwa [CompletionStore.loadExtractionSignals_recordFailure] at ht
      · exact ht
    · cases h
  | _ =>
    left
    simp only [Latch.step] at h
    repeat' split at h
    all_goals first
      | cases h
        done
      | obtain rfl := Option.some.inj h
        simpa [State.stored] using ht

/-- A handler moves its own message. -/
theorem status_of_ne (hm : a.signal? = some m) (h : Latch.step s a = some s') {m' : Signal}
    (hne : m' ≠ m) : s'.status m' = s.status m' := by
  cases a with
  | passStamps _ _ | passReturns | passFails _ _ _ | resumeLatest _ | resumeSignals _
  | resumeMaintained _ | restart => cases hm
  | ackReturns m₁ =>
    cases hm
    simp only [Latch.step] at h
    split at h
    · obtain rfl := Option.some.inj h
      split_ifs
      · unfold State.startPostImportMaintenance
        split <;> exact put_status_of_ne hne _
      · exact put_status_of_ne hne _
    · cases h
  | _ =>
    cases hm
    simp only [Latch.step] at h
    repeat' split at h
    all_goals first
      | cases h
        done
      | obtain rfl := Option.some.inj h
        simp [hne]

/-- The other steps move no message, a restart aside. -/
theorem status_of_signal_none (hm : a.signal? = none) (ha : a ≠ .restart)
    (h : Latch.step s a = some s') : s'.status = s.status := by
  cases a with
  | restart => exact absurd rfl ha
  | passStamps now statsVersion =>
    simp only [Latch.step] at h
    split at h
    · simp only [Option.ite_none_right_eq_some, Option.map_eq_some_iff] at h
      obtain ⟨-, store, -, rfl⟩ := h
      rfl
    · cases h
  | resumeMaintained ok =>
    simp only [Latch.step] at h
    split at h
    · obtain rfl := Option.some.inj h
      split_ifs
      · unfold State.startPostImportMaintenance
        split <;> rfl
      · rfl
    · cases h
  | passReturns | passFails recorded now error | resumeLatest answer | resumeSignals ok =>
    simp only [Latch.step] at h
    repeat' split at h
    all_goals first
      | cases h
        done
      | obtain rfl := Option.some.inj h
        rfl
  | _ => cases hm

end Graphinator.Latch
