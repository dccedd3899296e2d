import UsacLinux.MemoryLimit.GetLimits

/-!
# The registry as a finite map from pids to limits

What the two modifying calls are for, in the terms of the manual: a map from
pids to limits and, for each call, a list of error conditions in order of
precedence (ManualProyecto3.md:213-221 and 451-459). The kernel list refines
this map over whole runs.
-/

namespace UsacLinux.MemoryLimit
open Kernel Lib.KeyedList Lib.Machine

/-! ### The abstract model -/

abbrev LimitMap := PidT → Option SizeT

/- Result of the first condition that applies, 0 when none does. -/
def firstApplicable : List (Bool × ℤ) → ℤ
  | [] => 0
  | (applies, code) :: rest => if applies then code else firstApplicable rest

/- Address space of the process a pid names for the caller. -/
def CallEnv.mmOf (env : CallEnv) (p : PidT) : Option MmStruct := (env.pidTask p).bind TaskStruct.mm

def exceeds (l : SizeT) : Option MmStruct → Bool
  | none => false
  | some mm => decide (l.toNat < mm.rss.toNat * 4)

def requestCodes (env : CallEnv) (p : PidT) (l : SizeT) : List (Bool × ℤ) :=
  [(decide (p.toInt ≤ 0 ∨ l = 0), -EINVAL), (!env.capable, -EPERM),
    ((env.mmOf p).isNone, -ESRCH), (exceeds l (env.mmOf p), -100)]

def addCodes (env : CallEnv) (p : PidT) (l : SizeT) (m : LimitMap) : List (Bool × ℤ) :=
  requestCodes env p l ++ [((m p).isSome, -101), (!env.kmalloc, -ENOMEM)]

def updateCodes (env : CallEnv) (p : PidT) (l : SizeT) (m : LimitMap) : List (Bool × ℤ) :=
  requestCodes env p l ++ [((m p).isNone, -102)]

def limitCodes (m : LimitMap) (c : LimitCall) : List (Bool × ℤ) :=
  match c.op with
  | .add => addCodes c.env c.pid c.limit m
  | .update => updateCodes c.env c.pid c.limit m

def specLimit (m : LimitMap) (c : LimitCall) : LimitMap × ℤ :=
  let code := firstApplicable (limitCodes m c)
  (if code = 0 then Function.update m c.pid (some c.limit) else m, code)

def specCall (m : LimitMap) : RegistryCall → LimitMap × Option ℤ
  | .limit c => ((specLimit m c).1, some (specLimit m c).2)
  | .get _ _ => (m, none)

def RegistryReply.limitRet : RegistryReply → Option ℤ
  | .limit r => some r.ret
  | .get _ => none

/-! ### Abstraction -/

def toMap (list : List MemoryLimitation) : LimitMap := fun p =>
  (findKey MemoryLimitation.pid p list).map MemoryLimitation.memoryLimit

/- Page counts small enough for `rss * PAGE_SIZE` to be exact. -/
def CallEnv.ResidentBelow (env : CallEnv) : Prop :=
  ∀ p mm, env.mmOf p = some mm → mm.rss.toNat < 2 ^ 52

def RegistryCall.ResidentBelow : RegistryCall → Prop
  | .limit c => c.env.ResidentBelow
  | .get _ _ => True

theorem exceeds_iff (l : SizeT) (mm : MmStruct) (h : mm.rss.toNat < 2 ^ 52) :
    l < pagesToKb (getMmRss mm) ↔ exceeds l (some mm) = true := by
  rw [BitVec.lt_def, getMmRss, pagesToKb_toNat mm.rss h, exceeds, decide_eq_true_eq]
  omega

/- The nested conditionals of the source are the documented precedence. -/
theorem firstApplicable_request (env : CallEnv) (p : PidT) (l : SizeT) (h : env.ResidentBelow)
    (rest : List (Bool × ℤ)) :
    firstApplicable (requestCodes env p l ++ rest) =
      match requestError env p l with
      | some e => -e
      | none => firstApplicable rest := by
  simp only [requestCodes, List.cons_append, List.nil_append, firstApplicable, requestError,
    le_zero_iff, decide_eq_true_eq]
  by_cases hbad : p.toInt ≤ 0 ∨ l = 0
  · simp only [hbad, if_true]
  · simp only [hbad, if_false]
    cases hcap : env.capable with
    | false => rfl
    | true =>
      simp only [Bool.not_true, Bool.false_eq_true, if_false]
      cases ht : env.pidTask p with
      | none => simp [CallEnv.mmOf, ht]
      | some task =>
        cases hm : task.mm with
        | none => simp [CallEnv.mmOf, ht, hm]
        | some mm =>
          have hmm : env.mmOf p = some mm := by simp [CallEnv.mmOf, ht, hm]
          have hx := exceeds_iff l mm (h p mm hmm)
          simp only [hmm, hm, Option.isNone_some, Bool.false_eq_true, if_false]
          by_cases he : l < pagesToKb (getMmRss mm)
          · simp only [hx.mp he, he, if_true]
          · have hn : ¬exceeds l (some mm) = true := fun hc => he (hx.mpr hc)
            simp only [he, hn, Bool.false_eq_true, if_false]

theorem toMap_isSome (list : List MemoryLimitation) (p : PidT) :
    (toMap list p).isSome = (findKey MemoryLimitation.pid p list).isSome := by
  simp [toMap]

theorem toMap_cons (list : List MemoryLimitation) (p : PidT) (l : SizeT) :
    toMap (⟨p, l⟩ :: list) = Function.update (toMap list) p (some l) := by
  funext q
  by_cases hq : q = p
  · subst hq
    simp [toMap, findKey_cons]
  · simp [toMap, findKey_cons, hq, Ne.symm hq]

theorem toMap_assign {list list' : List MemoryLimitation} {p : PidT} {l : SizeT}
    (h : assignFirst MemoryLimitation.pid p (fun entry => {entry with memoryLimit := l}) list =
      some list') : toMap list' = Function.update (toMap list) p (some l) := by
  funext q
  have hk := findKey_assignFirst MemoryLimitation.pid (by simp) h q
  by_cases hq : q = p
  · subst hq
    have hs : (findKey MemoryLimitation.pid q list).isSome := by
      rw [Option.isSome_iff_ne_none, Ne, findKey_eq_none, ← assignFirst_none_iff, h]
      simp
    obtain ⟨e, he⟩ := Option.isSome_iff_exists.mp hs
    simp [toMap, hk, he]
  · simp [toMap, hk, hq]

/-! ### One call -/

/- A call changes the map exactly when it returns 0. -/
theorem toMap_execLimit (list : List MemoryLimitation) (c : LimitCall) :
    toMap (execLimit list c).1 =
      if (execLimit list c).2.ret = 0 then Function.update (toMap list) c.pid (some c.limit)
      else toMap list := by
  rcases execLimit_cases list c with ⟨hne, hl⟩ | ⟨h0, -, ⟨-, -, hl⟩ | ⟨-, ha⟩⟩
  · rw [if_neg hne, hl]
  · rw [if_pos h0, hl, toMap_cons]
  · rw [if_pos h0, toMap_assign ha]

theorem add_ret (env : CallEnv) (p : PidT) (l : SizeT) (list : List MemoryLimitation)
    (h : env.ResidentBelow) :
    (so2AddMemoryLimit env p l list).2.ret = firstApplicable (addCodes env p l (toMap list)) := by
  rw [addCodes, firstApplicable_request env p l h]
  unfold so2AddMemoryLimit
  cases requestError env p l with
  | some e => rfl
  | none =>
    simp only [firstApplicable, toMap_isSome]
    rcases addLocked_cases env.kmalloc p l list with ⟨hm, ha⟩ | ⟨hm, hk, ha⟩ | ⟨hm, hk, ha⟩
    · rw [mem_pids_iff] at hm
      simp [ha, hm]
    · rw [mem_pids_iff] at hm
      rw [ha]
      simp [hm, hk]
    · rw [mem_pids_iff] at hm
      rw [ha]
      simp [hm, hk]

theorem update_ret (env : CallEnv) (p : PidT) (l : SizeT) (list : List MemoryLimitation)
    (h : env.ResidentBelow) :
    (so2UpdateMemoryLimit env p l list).2.ret =
      firstApplicable (updateCodes env p l (toMap list)) := by
  rw [updateCodes, firstApplicable_request env p l h]
  unfold so2UpdateMemoryLimit
  cases requestError env p l with
  | some e => rfl
  | none =>
    have hs := toMap_isSome list p
    simp only [firstApplicable]
    rcases updateLocked_cases p l list with ⟨hm, hu⟩ | ⟨hm, list', -, hu⟩
    · rw [mem_pids_iff, ← hs] at hm
      simp [hu, Option.not_isSome_iff_eq_none.mp hm]
    · rw [mem_pids_iff, ← hs] at hm
      simp [hu, Option.isSome_iff_ne_none.mp hm]

theorem update_pids (env : CallEnv) (p : PidT) (l : SizeT) (list : List MemoryLimitation) :
    (so2UpdateMemoryLimit env p l list).1.map MemoryLimitation.pid =
      list.map MemoryLimitation.pid := by
  unfold so2UpdateMemoryLimit
  cases requestError env p l with
  | some e => rfl
  | none =>
    rcases updateLocked_cases p l list with ⟨-, hu⟩ | ⟨-, list', ha, hu⟩
    · simp only [hu]
    · simp only [hu]
      exact assignFirst_keys MemoryLimitation.pid (by simp) ha

theorem limit_refines (list : List MemoryLimitation) (c : LimitCall) (h : c.env.ResidentBelow) :
    specLimit (toMap list) c = (toMap (execLimit list c).1, (execLimit list c).2.ret) := by
  have hmap := toMap_execLimit list c
  obtain ⟨op, env, p, l⟩ := c
  cases op with
  | add =>
    have hr := add_ret env p l list h
    simp only [specLimit, limitCodes, ← hr, hmap]
    rfl
  | update =>
    have hr := update_ret env p l list h
    simp only [specLimit, limitCodes, ← hr, hmap]
    rfl

theorem call_refines (list : List MemoryLimitation) (c : RegistryCall) (h : c.ResidentBelow) :
    specCall (toMap list) c = (toMap (execCall list c).1, (execCall list c).2.limitRet) := by
  cases c with
  | limit c => simp only [specCall, limit_refines list c h, execCall, RegistryReply.limitRet]
  | get env args => rfl

/-! ### Whole runs -/

theorem so2_registry_refines_map (calls : List RegistryCall) (hc : ∀ c ∈ calls, c.ResidentBelow) :
    let list := (run execCall [] calls).1
    run specCall (fun _ => none) calls =
      (toMap list, (run execCall [] calls).2.map RegistryReply.limitRet) ∧
    (list.map MemoryLimitation.pid).Nodup ∧
    (∀ e ∈ list, 0 < e.pid.toInt ∧ e.memoryLimit ≠ 0) ∧
    (∀ (env : CallEnv) (p : PidT) (l : SizeT), env.ResidentBelow →
      let r := so2AddMemoryLimit env p l list
      r.2.ret = firstApplicable (addCodes env p l (toMap list)) ∧
      (r.2.ret = 0 → toMap r.1 = Function.update (toMap list) p (some l)) ∧
      (r.2.ret ≠ 0 → r.1 = list)) ∧
    (∀ (env : CallEnv) (p : PidT) (l : SizeT), env.ResidentBelow →
      let r := so2UpdateMemoryLimit env p l list
      r.2.ret = firstApplicable (updateCodes env p l (toMap list)) ∧
      (r.2.ret = 0 → toMap r.1 = Function.update (toMap list) p (some l)) ∧
      r.1.map MemoryLimitation.pid = list.map MemoryLimitation.pid ∧
      (r.2.ret ≠ 0 → r.1 = list)) ∧
    (∀ (env : GetEnv) (args : GetArgs), (execCall list (.get env args)).1 = list) := by
  intro list
  have hv : Valid list := run_invariant execCall Valid execCall_valid [] calls empty_valid
  have hsim := run_simulation execCall specCall toMap RegistryReply.limitRet
    RegistryCall.ResidentBelow call_refines [] calls hc
  refine ⟨hsim, hv.pidsNodup, hv.wellFormed, ?_, ?_, fun _ _ => rfl⟩
  · intro env p l he r
    have hmap := toMap_execLimit list ⟨.add, env, p, l⟩
    exact ⟨add_ret env p l list he, fun h0 => hmap.trans (if_pos h0),
      execLimit_nonzero list ⟨.add, env, p, l⟩⟩
  · intro env p l he r
    have hmap := toMap_execLimit list ⟨.update, env, p, l⟩
    exact ⟨update_ret env p l list he, fun h0 => hmap.trans (if_pos h0), update_pids env p l list,
      execLimit_nonzero list ⟨.update, env, p, l⟩⟩

theorem testEnv_residentBelow : testEnv.ResidentBelow := by
  intro p mm h
  obtain rfl : (⟨400, 100⟩ : MmStruct) = mm := Option.some.inj h
  decide

theorem so2_registry_refines_test_calls :
    testEnv.ResidentBelow ∧
    run specCall (fun _ => none) (testCalls.map .limit) =
      (toMap [⟨5678, 1000⟩, ⟨1234, 500⟩], [some 0, some 0]) := by
  refine ⟨testEnv_residentBelow, ?_⟩
  have h := (so2_registry_refines_map (testCalls.map .limit) (by
    intro c hc
    obtain ⟨x, hx, rfl⟩ := List.mem_map.mp hc
    rcases List.mem_pair.mp hx with rfl | rfl <;> exact testEnv_residentBelow)).1
  rw [h]
  have hl : (run execCall [] (testCalls.map .limit)).1 = [⟨5678, 1000⟩, ⟨1234, 500⟩] := by decide
  rw [hl]
  rfl

end UsacLinux.MemoryLimit
