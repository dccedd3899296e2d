import UsacLinux.MemoryLimit.Refinement

/-!
# Calls on different pids do not interfere

All entries share one list, searched linearly and grown at its head, yet the
result of a call depends only on the earlier calls on its own pid.
-/

namespace UsacLinux.MemoryLimit
open Kernel Lib.KeyedList Lib.Machine

/- What a call does to the limit of its own pid. -/
def actOnLimit (v : Option SizeT) (c : LimitCall) : Option SizeT × Reply :=
  match requestError c.env c.pid c.limit, c.op with
  | some e, .add => (v, ⟨-e, none⟩)
  | some e, .update => (v, ⟨-e, some e⟩)
  | none, .add =>
    if v.isSome then (v, ⟨-101, none⟩)
    else if c.env.kmalloc then (some c.limit, ⟨0, none⟩) else (v, ⟨-ENOMEM, none⟩)
  | none, .update => if v.isSome then (some c.limit, ⟨0, none⟩) else (v, ⟨-102, some 102⟩)

theorem addLocked_limit (k : Bool) (p : PidT) (l : SizeT) (list : List MemoryLimitation) :
    (toMap (addLocked k p l list).1 p, (addLocked k p l list).2) =
      if (toMap list p).isSome then (toMap list p, -101)
      else if k then (some l, 0) else (toMap list p, -ENOMEM) := by
  rw [toMap_isSome]
  rcases addLocked_cases k p l list with ⟨hm, ha⟩ | ⟨hm, rfl, ha⟩ | ⟨hm, rfl, ha⟩
  · rw [mem_pids_iff] at hm
    simp [ha, hm]
  · rw [mem_pids_iff] at hm
    simp [ha, hm]
  · rw [mem_pids_iff] at hm
    simp [ha, hm, toMap_cons]

theorem updateLocked_limit (p : PidT) (l : SizeT) (list : List MemoryLimitation) :
    (toMap (updateLocked p l list).1 p, (updateLocked p l list).2) =
      if (toMap list p).isSome then (some l, 0) else (toMap list p, -102) := by
  rw [toMap_isSome]
  rcases updateLocked_cases p l list with ⟨hm, hu⟩ | ⟨hm, list', ha, hu⟩
  · rw [mem_pids_iff] at hm
    simp [hu, hm]
  · rw [mem_pids_iff] at hm
    simp [hu, hm, toMap_assign ha]

theorem execLimit_local :
    Local execLimit LimitCall.pid (fun p list => toMap list p) actOnLimit := by
  constructor
  · intro list c
    obtain ⟨op, env, p, l⟩ := c
    cases op with
    | add =>
      simp only [actOnLimit, execLimit, so2AddMemoryLimit]
      cases hr : requestError env p l with
      | some e => rfl
      | none =>
        have ha := congrArg (fun x => (x.1, (⟨x.2, none⟩ : Reply)))
          (addLocked_limit env.kmalloc p l list)
        refine Eq.trans ?_ ha.symm
        dsimp only
        split
        · rfl
        · split <;> rfl
    | update =>
      simp only [actOnLimit, execLimit, so2UpdateMemoryLimit]
      cases hr : requestError env p l with
      | some e => rfl
      | none =>
        have hu := congrArg (fun x => (x.1, (⟨x.2, if x.2 = 0 then none else some 102⟩ : Reply)))
          (updateLocked_limit p l list)
        refine Eq.trans ?_ hu.symm
        dsimp only
        split <;> rfl
  · intro list c q hq
    rw [toMap_execLimit]
    split
    · rw [Function.update_of_ne hq]
    · rfl

theorem findKey_of_toMap (list : List MemoryLimitation) (p : PidT) :
    findKey MemoryLimitation.pid p list = (toMap list p).map fun l => ⟨p, l⟩ := by
  cases hf : findKey MemoryLimitation.pid p list with
  | none => simp [toMap, hf]
  | some e =>
    obtain ⟨q, l⟩ := e
    obtain rfl : q = p := findKey_key MemoryLimitation.pid hf
    simp [toMap, hf]

theorem run_execLimit_valid (calls : List LimitCall) : Valid (run execLimit [] calls).1 :=
  registryAfter_entries calls ▸ (registryAfter calls).valid

theorem so2_calls_on_different_pids_independent (cs ds : List LimitCall)
    (h : ∀ p, inputsAt LimitCall.pid p cs = inputsAt LimitCall.pid p ds) :
    (∀ p, outputsAt LimitCall.pid p cs (run execLimit [] cs).2 =
      outputsAt LimitCall.pid p ds (run execLimit [] ds).2) ∧
    (run execLimit [] cs).1.Perm (run execLimit [] ds).1 ∧
    ∀ p, toMap (run execLimit [] cs).1 p = toMap (run execLimit [] ds).1 p := by
  have hloc := fun p => execLimit_local.run_eq_of_inputsAt [] cs ds p (h p)
  refine ⟨fun p => (hloc p).2, ?_, fun p => (hloc p).1⟩
  apply perm_of_findKey MemoryLimitation.pid (run_execLimit_valid cs).pidsNodup
    (run_execLimit_valid ds).pidsNodup
  intro p
  rw [findKey_of_toMap, findKey_of_toMap, (hloc p).1]

theorem so2_test_calls_in_either_order :
    (∀ p, inputsAt LimitCall.pid p testCalls = inputsAt LimitCall.pid p testCalls.reverse) ∧
    (run execLimit [] testCalls).1.Perm (run execLimit [] testCalls.reverse).1 := by
  have h : ∀ p, inputsAt LimitCall.pid p testCalls = inputsAt LimitCall.pid p testCalls.reverse := by
    intro p
    by_cases h1 : 1234#32 = p
    · subst h1
      rfl
    · simp [inputsAt, testCalls, List.filter_cons, h1]
  exact ⟨h, (so2_calls_on_different_pids_independent testCalls testCalls.reverse h).2.1⟩

end UsacLinux.MemoryLimit
