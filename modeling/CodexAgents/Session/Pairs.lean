import CodexAgents.Session.History

/-!
# Calls and their outputs

`core/src/context_manager/normalize.rs`.  Before a history is sent, every call in it gets an output
(`ensureCallOutputsPresent`), and outputs without a call are taken out (`removeOrphanOutputs`).
When the first item of a history is removed, so is the other half of its pair (`removeFirstItem`).

A call and its output have the same `Kind` and id.  A call of the local shell is answered by the
output of a function.  The errors that are only logged are left out.
-/

namespace Session

open Text List ContextManager ResponseItem

/-- What kinds of calls there are. -/
inductive Kind where
  | function
  | toolSearch
  | custom
  deriving DecidableEq

/-- What pairs a call and its output. -/
abbrev CallKey := Kind × Str

namespace ResponseItem

/-- The key of a call. -/
def callKey : ResponseItem → Option CallKey
  | functionCall _ callId _ _ => some (.function, callId)
  | localShellCall _ callId _ _ => callId.map (.function, ·)
  | toolSearchCall _ callId _ _ => callId.map (.toolSearch, ·)
  | customToolCall _ callId _ _ => some (.custom, callId)
  | _ => none

/-- The key of an output. -/
def outputKey : ResponseItem → Option CallKey
  | functionCallOutput _ callId _ _ => some (.function, callId)
  | toolSearchOutput _ callId _ _ _ _ => callId.map (.toolSearch, ·)
  | customToolCallOutput _ callId _ _ _ => some (.custom, callId)
  | _ => none

/-- An output of a search that the server has made. -/
def isServerOutput : ResponseItem → Bool
  | toolSearchOutput _ _ _ execution _ _ => execution = "server"
  | _ => false

variable {item : ResponseItem} {key : CallKey}

lemma outputKey_of_callKey (h : item.callKey = some key) : item.outputKey = none := by
  cases item <;> simp_all [callKey, outputKey]

lemma callKey_of_outputKey (h : item.outputKey = some key) : item.callKey = none := by
  cases item <;> simp_all [callKey, outputKey]

end ResponseItem

/-! ## Missing outputs -/

/-- The ids in the sets of calls, and in those of outputs. -/
def callKeys (items : List Envelope) : List CallKey := items.filterMap (·.item.callKey)

/-- The ids in the sets of outputs. -/
def outputKeys (items : List Envelope) : List CallKey := items.filterMap (·.item.outputKey)

section

variable (newId : Str → Str → Str)

/-- `newId` is `ResponseItemId::with_suffix` with the UUID of a name. -/
def syntheticOutputId (kind : Str) (itemId : Option Str) : Option Str :=
  (itemId.filter (· ≠ [])).map fun sourceId => newId kind (kind ++ ':' :: sourceId)

/-- What a call without an output gets. -/
def abortedOutput : FunctionCallOutputPayload := ⟨.text "aborted", none⟩

/-- The output for a call. -/
def syntheticOutput : ResponseItem → Option ResponseItem
  | .functionCall id callId _ _ =>
    some (.functionCallOutput (syntheticOutputId newId "fco" id) callId abortedOutput none)
  | .toolSearchCall id callId _ _ => callId.map fun callId =>
    .toolSearchOutput (syntheticOutputId newId "tso" id) (some callId) "completed"
      "client" [] none
  | .customToolCall id callId _ _ =>
    some (.customToolCallOutput (syntheticOutputId newId "ctco" id) callId none
      abortedOutput none)
  | .localShellCall id callId _ _ => callId.map fun callId =>
    .functionCallOutput (syntheticOutputId newId "fco" id) callId abortedOutput none
  | _ => none

/-- The output to be inserted after an item. -/
def missingOutput (outputs : List CallKey) (e : Envelope) : Option Envelope :=
  match e.item.callKey with
  | some key => if key ∈ outputs then none else (syntheticOutput newId e.item).map (⟨·, none⟩)
  | none => none

variable (items : List Envelope)

/-- Outputs are inserted from the last to the first, so that the places stay right. -/
def ensureCallOutputsPresent : List Envelope :=
  let missing := items.zipIdx.filterMap fun p =>
    (missingOutput newId (outputKeys items) p.1).map (p.2, ·)
  missing.reverse.foldl (fun items p => items.insertIdx (p.1 + 1) p.2) items

/-- The item is no output, or one with a call or of a server. -/
def hasCall (calls : List CallKey) (item : ResponseItem) : Bool :=
  item.isServerOutput || item.outputKey.all (· ∈ calls)

/-- Outputs without a call go. -/
def removeOrphanOutputs : List Envelope := items.filter fun e => hasCall (callKeys items) e.item

/-- The two passes. -/
def normalizeCalls : List Envelope := removeOrphanOutputs (ensureCallOutputsPresent newId items)

/-- An item, and the output that is inserted after it. -/
def withOutput (outputs : List CallKey) (e : Envelope) : List Envelope :=
  e :: (missingOutput newId outputs e).toList

variable {newId} {items : List Envelope}

lemma ensureCallOutputsPresent_eq (items : List Envelope) : ensureCallOutputsPresent newId items =
      items.flatMap (withOutput newId (outputKeys items)) := by
  -- the items after some that have been passed
  have hins (outputs : List CallKey) (passed rest : List Envelope) :
      ((rest.zipIdx passed.length).filterMap fun p =>
        (missingOutput newId outputs p.1).map (p.2, ·)).foldr
          (fun p items => items.insertIdx (p.1 + 1) p.2) (passed ++ rest) =
        passed ++ rest.flatMap (withOutput newId outputs) := by
    induction rest generalizing passed with
    | nil => simp
    | cons e rest ih =>
      have hrest := ih (passed ++ [e])
      simp only [length_append, length_singleton, append_assoc, singleton_append] at hrest
      rcases hmissing : missingOutput newId outputs e with _ | out
      · simp [hmissing, hrest, withOutput]
      · have hinsert (passed rest : List Envelope) :
            (passed ++ e :: rest).insertIdx (passed.length + 1) out =
              passed ++ e :: out :: rest := by
          induction passed with
          | nil => rfl
          | cons a passed ih => simpa using ih
        simp [hmissing, hrest, withOutput, hinsert]
  simpa [ensureCallOutputsPresent, foldl_reverse] using hins (outputKeys items) [] items

variable {item : ResponseItem}

lemma syntheticOutput_of_callKey {key} (h : item.callKey = some key) :
    ∃ out, syntheticOutput newId item = some out ∧ out.outputKey = some key ∧
      out.callKey = none := by
  cases item <;>
    simp_all [callKey, syntheticOutput, outputKey, Option.map_eq_some_iff]

variable {outputs : List CallKey}

/-- **A missing output** answers a call, and is not one. -/
theorem missingOutput_eq_some {e out} (h : missingOutput newId outputs e = some out) :
    ∃ key, e.item.callKey = some key ∧ key ∉ outputs ∧ out.item.outputKey = some key ∧
      out.item.callKey = none := by
  unfold missingOutput at h
  split at h
  · rename_i key hkey
    obtain ⟨item, hitem, hout⟩ := @syntheticOutput_of_callKey newId _ _ hkey
    split at h
    · cases h
    · rw [hitem] at h
      cases h
      exact ⟨key, hkey, ‹_›, hout⟩
  · cases h

lemma missingOutput_eq_none_iff {e} :
    missingOutput newId outputs e = none ↔ ∀ key, e.item.callKey = some key → key ∈ outputs := by
  unfold missingOutput
  split
  · rename_i key hkey
    obtain ⟨item, hitem, -⟩ := @syntheticOutput_of_callKey newId _ _ hkey
    simp [hitem, hkey]
  · simp [*]

lemma callKeys_flatMap_withOutput (outputs : List CallKey) (items : List Envelope) :
    callKeys (items.flatMap (withOutput newId outputs)) = callKeys items := by
  induction items with
  | nil => rfl
  | cons e items ih =>
    rw [callKeys] at ih
    rcases h : missingOutput newId outputs e with _ | out
    · simp [callKeys, withOutput, h, filterMap_cons, ih]
    · obtain ⟨-, -, -, -, hnone⟩ := missingOutput_eq_some h
      simp [callKeys, withOutput, h, filterMap_cons, hnone, ih]

lemma hasCall_of_callKey {key} (h : item.callKey = some key) (calls : List CallKey) :
    hasCall calls item := by
  simp [hasCall, item.outputKey_of_callKey h]

/-- Calls are not removed. -/
lemma callKeys_filter (calls : List CallKey) (items : List Envelope) :
    callKeys (items.filter fun e => hasCall calls e.item) = callKeys items := by
  rw [callKeys, filterMap_filter]
  refine filterMap_congr fun e _ => ?_
  rcases h : e.item.callKey with _ | key
  · simp
  · simp [hasCall_of_callKey h]

/-- **Both passes at once**: outputs without a call go, and missing ones come after their calls. -/
theorem normalizeCalls_eq (items : List Envelope) : normalizeCalls newId items =
      (items.filter fun e => hasCall (callKeys items) e.item).flatMap
        (withOutput newId (outputKeys items)) := by
  rw [normalizeCalls, removeOrphanOutputs, ensureCallOutputsPresent_eq, callKeys_flatMap_withOutput]
  have hpart (outputs : List CallKey) (part : List Envelope) (hpart : part ⊆ items) :
      (part.flatMap (withOutput newId outputs)).filter (fun e => hasCall (callKeys items) e.item) =
        (part.filter fun e => hasCall (callKeys items) e.item).flatMap
          (withOutput newId outputs) := by
    induction part with
    | nil => rfl
    | cons e part ih =>
      obtain ⟨he, hpart⟩ := cons_subset.mp hpart
      rw [flatMap_cons, filter_append, ih hpart]
      rcases h : missingOutput newId outputs e with _ | out
      · rcases hcall : hasCall (callKeys items) e.item <;> simp [withOutput, h, hcall]
      · obtain ⟨key, hkey, -, hout, -⟩ := missingOutput_eq_some h
        have hmem : key ∈ callKeys items := mem_filterMap.mpr ⟨e, he, hkey⟩
        have hcall : hasCall (callKeys items) out.item := by simp [hasCall, hout, hmem]
        simp [withOutput, h, hasCall_of_callKey hkey, hcall]
  exact hpart (outputKeys items) items (List.Subset.refl items)

lemma callKeys_normalizeCalls (items : List Envelope) :
    callKeys (normalizeCalls newId items) = callKeys items := by
  rw [normalizeCalls_eq, callKeys_flatMap_withOutput, callKeys_filter]

lemma mem_outputKeys_normalizeCalls {key} (h : key ∈ callKeys items) :
    key ∈ outputKeys (normalizeCalls newId items) := by
  rw [normalizeCalls_eq]
  by_cases hout : key ∈ outputKeys items
  · obtain ⟨o, ho, hkey⟩ := mem_filterMap.mp hout
    have hkept : hasCall (callKeys items) o.item := by simp [hasCall, hkey, h]
    refine mem_filterMap.mpr ⟨o, mem_flatMap.mpr ⟨o, ?_, mem_cons_self⟩, hkey⟩
    exact mem_filter.mpr ⟨ho, hkept⟩
  · obtain ⟨e, he, hkey⟩ := mem_filterMap.mp h
    rcases hmissing : missingOutput newId (outputKeys items) e with _ | out
    · exact absurd (missingOutput_eq_none_iff.mp hmissing key hkey) hout
    · obtain ⟨key', hkey', -, hout', -⟩ := missingOutput_eq_some hmissing
      obtain rfl := Option.some.inj (hkey.symm.trans hkey')
      refine mem_filterMap.mpr ⟨out, mem_flatMap.mpr ⟨e, ?_, ?_⟩, hout'⟩
      · exact mem_filter.mpr ⟨he, hasCall_of_callKey hkey _⟩
      · simp [withOutput, hmissing]

lemma hasCall_iff {calls} : hasCall calls item ↔
    item.outputKey = none ∨ item.isServerOutput ∨ ∃ key ∈ calls, some key = item.outputKey := by
  rw [hasCall, Bool.or_eq_true]
  cases item.outputKey <;> simp

/-- What is inserted leaves the other items in their order. -/
lemma sublist_flatMap_withOutput (outputs : List CallKey) (items : List Envelope) :
    items.Sublist (items.flatMap (withOutput newId outputs)) := by
  induction items with
  | nil => exact .slnil
  | cons e items ih => exact .cons_cons e (ih.trans (sublist_append_right _ _))

/-- **Only outputs without a call go.** -/
theorem sublist_normalizeCalls {kept : List Envelope} (hsub : kept.Sublist items)
    (hkept : ∀ e ∈ kept, e.item.outputKey = none ∨ e.item.isServerOutput ∨
      ∃ call ∈ items, call.item.callKey = e.item.outputKey) :
    kept.Sublist (normalizeCalls newId items) := by
  have hcall : ∀ e ∈ kept, hasCall (callKeys items) e.item := by
    intro e he
    rcases hkey : e.item.outputKey with _ | key
    · exact hasCall_iff.mpr (.inl hkey)
    · refine hasCall_iff.mpr (.inr ((hkept e he).resolve_left ?_ |>.imp_right ?_))
      · rw [hkey]
        exact Option.some_ne_none key
      · rintro ⟨call, hmem, heq⟩
        exact ⟨key, mem_filterMap.mpr ⟨call, hmem, heq.trans hkey⟩, hkey.symm⟩
  rw [normalizeCalls_eq, ← filter_eq_self.mpr hcall]
  exact (hsub.filter _).trans (sublist_flatMap_withOutput _ _)

variable (newId) in
/-- **Calls and outputs are paired, and nothing else changes.**  Every call has an output, and every
output that is not from a server has a call.  What is removed are the outputs without a call, each
missing output stands after its call, and all other items stay as they are, in their order: those
that are no output, or the output of a call or of a server.  A second time changes nothing. -/
theorem normalizeCalls_closes (items : List Envelope) :
    (∀ e ∈ normalizeCalls newId items, ∀ key, e.item.callKey = some key →
      ∃ o ∈ normalizeCalls newId items, o.item.outputKey = some key) ∧
    (∀ o ∈ normalizeCalls newId items, ∀ key, o.item.outputKey = some key →
      o.item.isServerOutput = false →
      ∃ e ∈ normalizeCalls newId items, e.item.callKey = some key) ∧
    normalizeCalls newId items = (items.filter fun e => hasCall (callKeys items) e.item).flatMap
        (withOutput newId (outputKeys items)) ∧
    (∀ kept : List Envelope, kept.Sublist items →
      (∀ e ∈ kept, e.item.outputKey = none ∨ e.item.isServerOutput ∨
        ∃ call ∈ items, call.item.callKey = e.item.outputKey) →
      kept.Sublist (normalizeCalls newId items)) ∧
    normalizeCalls newId (normalizeCalls newId items) = normalizeCalls newId items := by
  have houtputs : ∀ e ∈ normalizeCalls newId items, ∀ key, e.item.callKey = some key →
      key ∈ outputKeys (normalizeCalls newId items) := by
    intro e he key hkey
    refine mem_outputKeys_normalizeCalls ?_
    rw [← @callKeys_normalizeCalls newId]
    exact mem_filterMap.mpr ⟨e, he, hkey⟩
  have hcalls : ∀ o ∈ normalizeCalls newId items,
      hasCall (callKeys (normalizeCalls newId items)) o.item := by
    intro o ho
    rw [callKeys_normalizeCalls, ← @callKeys_flatMap_withOutput newId (outputKeys items),
      ← ensureCallOutputsPresent_eq]
    exact (mem_filter.mp ho).2
  refine ⟨fun e he key hkey => mem_filterMap.mp (houtputs e he key hkey),
    fun o ho key hkey hserver => mem_filterMap.mp ?_, normalizeCalls_eq items,
    fun _ => sublist_normalizeCalls, ?_⟩
  · have hcall := hcalls o ho
    rwa [hasCall, hkey, hserver, Option.all_some, Bool.false_or, decide_eq_true_eq] at hcall
  · rw [normalizeCalls_eq (normalizeCalls newId items), filter_eq_self.mpr hcalls]
    refine (flatMap_congr fun e he => ?_).trans (flatMap_singleton' _)
    rw [withOutput, missingOutput_eq_none_iff.mpr (houtputs e he), Option.toList_none]

end

/-! ## Removing the first item -/

variable (items : List Envelope)

/-- The first such item goes. -/
def removeFirstMatching (p : ResponseItem → Bool) : List Envelope := items.eraseP fun e => p e.item

/-- The call of a function with this id. -/
def isFunctionCall (callId : Str) : ResponseItem → Bool
  | .functionCall _ existing _ _ => existing = callId
  | _ => false

/-- The call of the local shell with this id. -/
def isLocalShellCall (callId : Str) : ResponseItem → Bool
  | .localShellCall _ existing _ _ => existing = some callId
  | _ => false

lemma callKey_eq_function_iff {item callId} :
    item.callKey = some (.function, callId) ↔
      isFunctionCall callId item ∨ isLocalShellCall callId item := by
  cases item <;> simp [callKey, isFunctionCall, isLocalShellCall]

/-- The other half of a pair goes. -/
def removeCorrespondingFor : ResponseItem → List Envelope
  | .functionCall _ callId _ _ | .localShellCall _ (some callId) _ _ =>
    removeFirstMatching items (·.outputKey = some (.function, callId))
  | .functionCallOutput _ callId _ _ =>
    if items.any fun e => isFunctionCall callId e.item then
      removeFirstMatching items (isFunctionCall callId)
    else removeFirstMatching items (isLocalShellCall callId)
  | .toolSearchCall _ (some callId) _ _ =>
    removeFirstMatching items (·.outputKey = some (.toolSearch, callId))
  | .toolSearchOutput _ (some callId) _ _ _ _ =>
    removeFirstMatching items (·.callKey = some (.toolSearch, callId))
  | .customToolCall _ callId _ _ => removeFirstMatching items (·.outputKey = some (.custom, callId))
  | .customToolCallOutput _ callId _ _ _ =>
    removeFirstMatching items (·.callKey = some (.custom, callId))
  | _ => items

/-- The first item goes, with the other half of its pair. -/
def ContextManager.removeFirstItem (m : ContextManager) : ContextManager :=
  match m.items with
  | [] => m
  | removed :: items =>
    { m with items := removeCorrespondingFor items removed.item, worldStateBaseline := none }

/-- How many calls have the key. -/
def callCount (key : CallKey) (items : List Envelope) : Nat :=
  items.countP fun e => e.item.callKey = some key

/-- How many outputs have the key. -/
def outputCount (key : CallKey) (items : List Envelope) : Nat :=
  items.countP fun e => e.item.outputKey = some key

/-- **Each call has exactly one output, and each output exactly one call.** -/
def Paired : Prop :=
  ∀ e ∈ items, ∀ key, (e.item.callKey = some key → outputCount key items = 1) ∧
    (e.item.outputKey = some key → callCount key items = 1)

variable {items : List Envelope}

lemma paired_iff : Paired items ↔ ∀ key, callCount key items = outputCount key items ∧
      callCount key items ≤ 1 := by
  have hcall (key : CallKey) : 0 < callCount key items ↔
      ∃ e ∈ items, e.item.callKey = some key := by
    simp [callCount, countP_pos_iff]
  have hout (key : CallKey) : 0 < outputCount key items ↔
      ∃ e ∈ items, e.item.outputKey = some key := by
    simp [outputCount, countP_pos_iff]
  refine ⟨fun h key => ?_, fun h e he key => ?_⟩
  · have hone : 0 < callCount key items → outputCount key items = 1 := fun hpos => by
      obtain ⟨e, he, hkey⟩ := (hcall key).mp hpos
      exact (h e he key).1 hkey
    have hone' : 0 < outputCount key items → callCount key items = 1 := fun hpos => by
      obtain ⟨e, he, hkey⟩ := (hout key).mp hpos
      exact (h e he key).2 hkey
    omega
  · have := h key
    refine ⟨fun hkey => ?_, fun hkey => ?_⟩
    · have := (hcall key).mpr ⟨e, he, hkey⟩
      omega
    · have := (hout key).mpr ⟨e, he, hkey⟩
      omega

/-- **The other half of a pair is removed**, if it is there. -/
theorem removeCorrespondingFor_cases (items : List Envelope) (item : ResponseItem) :
    removeCorrespondingFor items item = items ∧ item.callKey = none ∧ item.outputKey = none ∨
    ∃ key p, removeCorrespondingFor items item = items.eraseP p ∧
      (item.callKey = some key ∧ (∀ e, p e → e.item.outputKey = some key) ∧
          (0 < outputCount key items → ∃ e ∈ items, p e) ∨
        item.outputKey = some key ∧ (∀ e, p e → e.item.callKey = some key) ∧
          (0 < callCount key items → ∃ e ∈ items, p e)) := by
  have hcall (key : CallKey) : (∀ e : Envelope, decide (e.item.outputKey = some key) = true →
      e.item.outputKey = some key) ∧ (0 < outputCount key items →
        ∃ e ∈ items, decide (e.item.outputKey = some key) = true) :=
    ⟨fun e => of_decide_eq_true, countP_pos_iff.mp⟩
  have hout (key : CallKey) : (∀ e : Envelope, decide (e.item.callKey = some key) = true →
      e.item.callKey = some key) ∧ (0 < callCount key items →
        ∃ e ∈ items, decide (e.item.callKey = some key) = true) :=
    ⟨fun e => of_decide_eq_true, countP_pos_iff.mp⟩
  cases item
  case functionCall => exact .inr ⟨_, _, rfl, .inl ⟨rfl, hcall _⟩⟩
  case customToolCall => exact .inr ⟨_, _, rfl, .inl ⟨rfl, hcall _⟩⟩
  case customToolCallOutput => exact .inr ⟨_, _, rfl, .inr ⟨rfl, hout _⟩⟩
  case localShellCall id callId rest metadata =>
    cases callId
    · exact .inl ⟨rfl, rfl, rfl⟩
    · exact .inr ⟨_, _, rfl, .inl ⟨rfl, hcall _⟩⟩
  case toolSearchCall id callId rest metadata =>
    cases callId
    · exact .inl ⟨rfl, rfl, rfl⟩
    · exact .inr ⟨_, _, rfl, .inl ⟨rfl, hcall _⟩⟩
  case toolSearchOutput id callId status execution tools metadata =>
    cases callId
    · exact .inl ⟨rfl, rfl, rfl⟩
    · exact .inr ⟨_, _, rfl, .inr ⟨rfl, hout _⟩⟩
  case functionCallOutput id callId output metadata =>
    refine .inr ⟨(.function, callId), ?_⟩
    rw [removeCorrespondingFor]
    split
    case isTrue hany =>
      exact ⟨_, rfl, .inr ⟨rfl, fun e he => callKey_eq_function_iff.mpr (.inl he),
        fun _ => by simpa using hany⟩⟩
    case isFalse hany =>
      refine ⟨_, rfl, .inr ⟨rfl, fun e he => callKey_eq_function_iff.mpr (.inr he), fun hpos => ?_⟩⟩
      obtain ⟨e, he, hkey⟩ := (hout _).2 hpos
      refine ⟨e, he, (callKey_eq_function_iff.mp (of_decide_eq_true hkey)).resolve_left fun h => ?_⟩
      exact hany (any_eq_true.mpr ⟨e, he, h⟩)
  all_goals exact .inl ⟨rfl, rfl, rfl⟩

variable {removed : Envelope}

/-- Without the two halves of a pair. -/
lemma Paired.without {other before after key}
    (h : Paired (removed :: (before ++ other :: after)))
    (hhalves : removed.item.callKey = some key ∧ other.item.outputKey = some key ∨
      removed.item.outputKey = some key ∧ other.item.callKey = some key) :
    Paired (before ++ after) := by
  rw [paired_iff] at h ⊢
  intro key'
  have hkey' := h key'
  simp only [callCount, outputCount, countP_cons, countP_append] at hkey' ⊢
  obtain ⟨hcall, hout⟩ | ⟨hout, hcall⟩ := hhalves
  · simp only [hcall, hout, removed.item.outputKey_of_callKey hcall,
      other.item.callKey_of_outputKey hout, reduceCtorEq, decide_false] at hkey'
    grind
  · simp only [hcall, hout, removed.item.callKey_of_outputKey hout,
      other.item.outputKey_of_callKey hcall, reduceCtorEq, decide_false] at hkey'
    grind

/-- **Removing the first item keeps the pairs**, and removes it and at most one other. -/
theorem Paired.tail (h : Paired (removed :: items)) :
    Paired (removeCorrespondingFor items removed.item) ∧
      (removeCorrespondingFor items removed.item).Sublist items ∧
      items.length ≤ (removeCorrespondingFor items removed.item).length + 1 := by
  have hcount := paired_iff.mp h
  simp only [callCount, outputCount, countP_cons] at hcount
  rcases removeCorrespondingFor_cases items removed.item with
    ⟨heq, hcall, hout⟩ | ⟨key, p, heq, hhalf⟩
  · rw [heq, paired_iff]
    simp only [hcall, hout] at hcount
    exact ⟨by simpa [callCount, outputCount] using hcount, List.Sublist.refl _, Nat.le_succ _⟩
  -- the other half is there
  obtain ⟨e, he, hpe⟩ : ∃ e ∈ items, p e := by
    have hkey := hcount key
    obtain ⟨hcall, -, hex⟩ | ⟨hout, -, hex⟩ := hhalf
    · simp only [hcall, removed.item.outputKey_of_callKey hcall] at hkey
      exact hex (by simp at hkey; rw [outputCount]; omega)
    · simp only [hout, removed.item.callKey_of_outputKey hout] at hkey
      exact hex (by simp at hkey; rw [callCount]; omega)
  obtain ⟨other, before, after, -, hother, rfl, herase⟩ := exists_of_eraseP he hpe
  rw [heq, herase]
  have hhalves : removed.item.callKey = some key ∧ other.item.outputKey = some key ∨
      removed.item.outputKey = some key ∧ other.item.callKey = some key :=
    hhalf.imp (fun h => ⟨h.1, h.2.1 other hother⟩) fun h => ⟨h.1, h.2.1 other hother⟩
  exact ⟨h.without hhalves, by simp, by simp; omega⟩

/-- **Trimming from the front never leaves half of a pair.**  Each time at most two items go, and in
the end there is none. -/
theorem removeFirstItem_paired {m : ContextManager} (h : Paired m.items) (n : Nat) :
    Paired (removeFirstItem^[n] m).items ∧ (removeFirstItem^[n + 1] m).items.Sublist
        (removeFirstItem^[n] m).items ∧
      (removeFirstItem^[n] m).items.length ≤ (removeFirstItem^[n + 1] m).items.length + 2 ∧
      (m.items.length ≤ n → (removeFirstItem^[n] m).items = []) := by
  have hstep {m : ContextManager} (h : Paired m.items) : Paired m.removeFirstItem.items ∧
      m.removeFirstItem.items.Sublist m.items ∧
      m.items.length ≤ m.removeFirstItem.items.length + 2 ∧
      m.removeFirstItem.items.length ≤ m.items.length - 1 := by
    unfold removeFirstItem
    rcases hitems : m.items with _ | ⟨removed, items⟩
    · simp [hitems, Paired]
    · rw [hitems] at h
      obtain ⟨hpaired, hsub, hlen⟩ := h.tail
      exact ⟨hpaired, hsub.cons _, by simpa using hlen, by simpa using hsub.length_le⟩
  have hrun : Paired (removeFirstItem^[n] m).items ∧
      (removeFirstItem^[n] m).items.length ≤ m.items.length - n := by
    induction n with
    | zero => exact ⟨h, le_rfl⟩
    | succ n ih =>
      obtain ⟨hpaired, -, -, hlen⟩ := hstep ih.1
      rw [Function.iterate_succ_apply']
      exact ⟨hpaired, by omega⟩
  obtain ⟨-, hsub, htwo, -⟩ := hstep hrun.1
  rw [Function.iterate_succ_apply']
  refine ⟨hrun.1, hsub, htwo, fun hn => eq_nil_of_length_eq_zero ?_⟩
  omega

/-- A call of the local shell, a search, and their outputs. -/
def pairedHistory : ContextManager where
  items := [.localShellCall none (some ['a']) [] none, .toolSearchCall none (some ['a']) [] none,
    .functionCallOutput none ['a'] abortedOutput none,
    .toolSearchOutput none (some ['a']) [] [] [] none].map (⟨·, none⟩)

theorem removeFirstItem_pairedHistory :
    Paired pairedHistory.items ∧ Paired pairedHistory.removeFirstItem.items := by
  have hpaired : Paired pairedHistory.items := by
    intro e he key
    fin_cases he <;> simp [callKey, outputKey] <;> rintro rfl <;> decide
  exact ⟨hpaired, (removeFirstItem_paired hpaired 1).1⟩

end Session
