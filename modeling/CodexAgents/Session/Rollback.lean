import CodexAgents.Session.Replay

/-!
# Two rollbacks are one

Dropping some instruction turns and then some more leaves the items that dropping all of them at
once leaves: the walk over the context updates above a cut does not pass a turn.  What may differ is
the reference context.  It is cleared if one of the updates above the cut is mixed with other
instructions, and one big cut does not look at the updates above the smaller one, though it takes
them away as well.
-/

namespace Session

open Text List

variable (env : Env) {items : List Envelope}

/-! ## Positions of the turns -/

lemma mem_userMessagePositions {i} : i ∈ userMessagePositions env items ↔
      ∃ e, items[i]? = some e ∧ isUserTurnBoundary env e.item := by
  simp [userMessagePositions, mem_zipIdx_iff_getElem?]

lemma pairwise_userMessagePositions (items : List Envelope) :
    (userMessagePositions env items).Pairwise (· < ·) := by
  rw [userMessagePositions, pairwise_map]
  refine List.Pairwise.filter _ (pairwise_iff_getElem.mpr fun i j hi hj hij => ?_)
  simpa using hij

/-- A cut behind some turns and not behind the others. -/
lemma userMessagePositions_take {before after cut}
    (h : userMessagePositions env items = before ++ after) (hbefore : ∀ i ∈ before, i < cut)
    (hafter : ∀ i ∈ after, cut ≤ i) :
    userMessagePositions env (items.take cut) = before := by
  have hsorted := pairwise_userMessagePositions env items
  rw [h] at hsorted
  refine (pairwise_userMessagePositions env _).eq_of_mem_iff (pairwise_append.mp hsorted).1
    fun i => ?_
  have hi : i ∈ userMessagePositions env items ↔ _ := mem_userMessagePositions env
  rw [h, mem_append] at hi
  rw [mem_userMessagePositions, getElem?_take]
  split
  · rw [← hi, or_iff_left fun hmem => absurd (hafter i hmem) (not_le.mpr ‹_›)]
  · simpa using fun hmem => absurd (hbefore i hmem) ‹_›

namespace ContextManager

/-! ## The walk back -/

/-- A message that is trimmed, and that has more than context in it. -/
def isMixedUpdate (e : Envelope) : Bool :=
  match e.item with
  | .message _ role content _ _ =>
    role = "developer" && env.isContextualDevMessageContent content &&
      env.hasNonContextualDevMessageContent content
  | _ => false

/-- A message of the developer or the user that tells the context. -/
def isContextUpdate (e : Envelope) : Bool :=
  match e.item with
  | .message _ role content _ _ =>
    (role = "developer" && env.isContextualDevMessageContent content) ||
      (role = "user" && env.isContextualUserMessageContent content)
  | _ => false

lemma not_isUserTurnBoundary_of_isContextUpdate {e} (h : isContextUpdate env e) :
    isUserTurnBoundary env e.item = false := by
  obtain ⟨_ | _ | _ | _ | _ | _ | _ | _ | _ | _ | _ | _ | _ | _ | _ | _ | _, harness⟩ := e
  case message id role content phase metadata =>
    simp only [isContextUpdate, Bool.or_eq_true, Bool.and_eq_true, decide_eq_true_eq] at h
    obtain ⟨rfl, -⟩ | ⟨rfl, huser⟩ := h
    · rfl
    · simp [isUserTurnBoundary, huser]
  all_goals exact absurd h Bool.false_ne_true

/-- One step of the walk. -/
lemma trimPreTurnContextUpdates_succ {first cut e} (hlt : first < cut + 1)
    (hget : items[cut]? = some e) (r : Option TurnContextItem) :
    trimPreTurnContextUpdates env items first (cut + 1) r =
      if isContextUpdate env e then
        trimPreTurnContextUpdates env items first cut (if isMixedUpdate env e then none else r)
      else (cut + 1, r) := by
  rw [trimPreTurnContextUpdates, if_pos hlt, hget, Option.map_some]
  obtain ⟨_ | _ | _ | _ | _ | _ | _ | _ | _ | _ | _ | _ | _ | _ | _ | _ | _, harness⟩ := e
  case message id role content phase metadata =>
    have hupdate : isContextUpdate env ⟨.message id role content phase metadata, harness⟩ ↔
        (role = "developer" ∧ env.isContextualDevMessageContent content) ∨
          (role = "user" ∧ env.isContextualUserMessageContent content) := by
      simp only [isContextUpdate, Bool.or_eq_true, Bool.and_eq_true, decide_eq_true_eq]
    have hmixed : isMixedUpdate env ⟨.message id role content phase metadata, harness⟩ ↔
        (role = "developer" ∧ env.isContextualDevMessageContent content) ∧
          env.hasNonContextualDevMessageContent content := by
      simp only [isMixedUpdate, Bool.and_eq_true, decide_eq_true_eq]
    by_cases hdev : role = "developer" ∧ env.isContextualDevMessageContent content
    · simp only [hupdate, hmixed, eq_true hdev, true_or, true_and, if_true]
    · simp only [hupdate, hmixed, eq_false hdev, false_or, false_and, if_false]
  all_goals rfl

/-- **What the walk does**: it stops behind every turn, and clears the reference if it passes a
mixed message. -/
theorem trimPreTurnContextUpdates_spec (first cut : Nat) (hcut : cut ≤ items.length)
    (r : Option TurnContextItem) :
    let c := (trimPreTurnContextUpdates env items first cut r).1
    c ≤ cut ∧
    (∀ i ∈ userMessagePositions env items, i < cut → i < c) ∧
    (trimPreTurnContextUpdates env items first cut r).2 =
      (if ((items.take cut).drop c).any (isMixedUpdate env) then none else r) ∧
    (first ∈ userMessagePositions env items → first < cut →
      (items.take cut).drop c = (items.take cut).rtakeWhile (isContextUpdate env)) := by
  induction cut generalizing r with
  | zero => simp [trimPreTurnContextUpdates]
  | succ cut ih =>
    have hget := getElem?_eq_getElem hcut
    have htake : items.take (cut + 1) = items.take cut ++ [items[cut]] := by
      rw [take_add_one, hget, Option.toList_some]
    have hdrop : (items.take (cut + 1)).drop (cut + 1) = [] :=
      drop_of_length_le (length_take_le _ _)
    by_cases hlt : first < cut + 1
    case neg =>
      rw [trimPreTurnContextUpdates, if_neg hlt]
      exact ⟨le_rfl, fun _ _ h => h, by rw [hdrop]; rfl, fun _ h => absurd h hlt⟩
    rw [trimPreTurnContextUpdates_succ env hlt hget]
    by_cases hupdate : isContextUpdate env items[cut]
    · -- the walk goes on over a message that is not a turn
      rw [if_pos hupdate]
      have hne : ∀ i ∈ userMessagePositions env items, i ≠ cut := by
        rintro i hi rfl
        obtain ⟨e, he, hturn⟩ := (mem_userMessagePositions env).mp hi
        obtain rfl := Option.some.inj (hget.symm.trans he)
        exact Bool.false_ne_true
          ((not_isUserTurnBoundary_of_isContextUpdate env hupdate).symm.trans hturn)
      obtain ⟨hle, hpast, href, hupdates⟩ :=
        ih (by omega) (if isMixedUpdate env items[cut] then none else r)
      refine ⟨by omega, fun i hi hlt => hpast i hi (by have := hne i hi; omega), ?_, ?_⟩
      · rw [href, htake, drop_append_of_le_length (by simp; omega), any_append]
        rcases hmixed : isMixedUpdate env items[cut] <;> simp [hmixed]
      · intro hfirst hlt
        have := hne first hfirst
        rw [htake, drop_append_of_le_length (by simp; omega), hupdates hfirst (by omega),
          rtakeWhile_concat_pos _ _ _ hupdate]
    · rw [if_neg hupdate]
      refine ⟨le_rfl, fun _ _ h => h, by rw [hdrop]; rfl, fun _ _ => ?_⟩
      rw [hdrop, htake, rtakeWhile_concat_neg _ _ _ hupdate]

/-- The walk looks only at what is before the cut. -/
lemma trimPreTurnContextUpdates_take (first : Nat) {cut c} (h : cut ≤ c)
    (r : Option TurnContextItem) :
    trimPreTurnContextUpdates env (items.take c) first cut r =
      trimPreTurnContextUpdates env items first cut r := by
  induction cut generalizing r with
  | zero => rfl
  | succ cut ih => simp only [trimPreTurnContextUpdates, getElem?_take_of_lt h, ih (by omega)]

/-! ## One rollback -/

/-- The updates directly above the last turns. -/
def updatesAbove (items : List Envelope) (numTurns : Nat) : List Envelope :=
  let positions := userMessagePositions env items
  if positions.length ≤ numTurns then []
  else (items.take (positions.getD (positions.length - numTurns) 0)).rtakeWhile
    (isContextUpdate env)

/-- A mixed message is among the updates. -/
def ClearsReference (items : List Envelope) (numTurns : Nat) : Prop :=
  ∃ e ∈ updatesAbove env items numTurns, isMixedUpdate env e = true

/-- What is left before the first turn. -/
def beforeFirst (items : List Envelope) (first : Nat) : List Envelope :=
  match (items[first]?).bind (·.item.turnId) with
  | some firstTurnId => (items.take first).filterMap (retainWithoutModelSwitch env firstTurnId)
  | none => items.take first

variable (m : ContextManager) {first : Nat} {others : List Nat} {n : Nat}

lemma drop_none (h : userMessagePositions env m.items = []) :
    (m.dropLastNUserTurns env (n + 1)).items = m.items ∧
      (m.dropLastNUserTurns env (n + 1)).referenceContextItem = m.referenceContextItem ∧
      updatesAbove env m.items (n + 1) = [] := by
  simp [dropLastNUserTurns, h, replaceAnnotated, updatesAbove]

lemma drop_all (h : userMessagePositions env m.items = first :: others) (hn : others.length ≤ n) :
    (m.dropLastNUserTurns env (n + 1)).items = beforeFirst env m.items first ∧
      (m.dropLastNUserTurns env (n + 1)).referenceContextItem = m.referenceContextItem ∧
      updatesAbove env m.items (n + 1) = [] := by
  have htrim : trimPreTurnContextUpdates env m.items first first m.referenceContextItem =
      (first, m.referenceContextItem) := by
    cases first <;> simp [trimPreTurnContextUpdates]
  have hlen : (first :: others).length ≤ n + 1 := by simpa using hn
  simp only [dropLastNUserTurns, h, Nat.succ_ne_zero, if_false, if_pos hlen, htrim,
    replaceAnnotated, updatesAbove, beforeFirst, if_true]
  cases (m.items[first]?).bind fun e => e.item.turnId <;> simp

lemma drop_some {before after p}
    (h : userMessagePositions env m.items = first :: before ++ p :: after)
    (hn : after.length = n) :
    let c := (trimPreTurnContextUpdates env m.items first p none).1
    (∀ i ∈ first :: before, i < c) ∧ c ≤ p ∧
      (m.dropLastNUserTurns env (n + 1)).items = m.items.take c ∧
      (m.dropLastNUserTurns env (n + 1)).referenceContextItem =
        (if ((m.items.take p).drop c).any (isMixedUpdate env) then none
          else m.referenceContextItem) ∧
      updatesAbove env m.items (n + 1) = (m.items.take p).drop c := by
  have hp : p ≤ m.items.length := by
    have hmem : p ∈ userMessagePositions env m.items := h ▸ by simp
    obtain ⟨e, he, -⟩ := (mem_userMessagePositions env).mp hmem
    exact (List.getElem?_eq_some_iff.mp he).1.le
  obtain ⟨hle, hpast, href, hupdates⟩ :=
    trimPreTurnContextUpdates_spec env first p hp m.referenceContextItem
  have hsorted := pairwise_userMessagePositions env m.items
  rw [h] at hsorted hpast hupdates
  have hbefore : ∀ i ∈ first :: before, i < p := fun i hi =>
    (pairwise_append.mp hsorted).2.2 i hi p mem_cons_self
  have hcut (x : Nat) : ((first :: before) ++ p :: after).getD
      (((first :: before) ++ p :: after).length - (n + 1)) x = p := by
    have hindex : ((first :: before) ++ p :: after).length - (n + 1) =
        (first :: before).length := by
      rw [length_append, length_cons (a := p)]
      omega
    rw [hindex, getD_eq_getElem?_getD, getElem?_append_right le_rfl]
    simp
  have hlen : ¬ (first :: (before ++ p :: after)).length ≤ n + 1 := by
    simp
    omega
  have hc := trimPreTurnContextUpdates_fst env m.items first p m.referenceContextItem none
  rw [hc] at hle hpast href hupdates
  have hlt : ∀ i ∈ first :: before, i < (trimPreTurnContextUpdates env m.items first p none).1 :=
    fun i hi => hpast i (mem_append_left _ hi) (hbefore i hi)
  have hne := (hlt first mem_cons_self).ne'
  simp only [cons_append] at h hcut
  refine ⟨hlt, hle, ?_, ?_, ?_⟩
  · simp only [dropLastNUserTurns, h, Nat.succ_ne_zero, if_false, if_neg hlen, hcut,
      replaceAnnotated, hc, if_neg hne]
    split <;> rfl
  · simp only [dropLastNUserTurns, h, Nat.succ_ne_zero, if_false, if_neg hlen, hcut,
      replaceAnnotated, href]
  · simp only [updatesAbove, h, if_neg hlen, hcut]
    exact (hupdates mem_cons_self (hbefore first mem_cons_self)).symm

/-- The turns before the cut are left. -/
lemma userMessagePositions_drop_some {before after p}
    (h : userMessagePositions env m.items = first :: before ++ p :: after)
    (hn : after.length = n) :
    userMessagePositions env (m.dropLastNUserTurns env (n + 1)).items = first :: before := by
  obtain ⟨hpast, hle, hitems, -⟩ := drop_some env m h hn
  have hsorted := pairwise_userMessagePositions env m.items
  rw [h] at hsorted
  rw [hitems]
  refine userMessagePositions_take env h hpast fun i hi => ?_
  obtain rfl | hi := mem_cons.mp hi
  · exact hle
  · exact hle.trans ((pairwise_cons.mp (pairwise_append.mp hsorted).2.1).1 i hi).le

lemma exists_split {others : List Nat} (h : n < others.length) :
    ∃ before p after, others = before ++ p :: after ∧ after.length = n := by
  obtain ⟨p, after, hdrop⟩ := exists_cons_of_length_pos
    (l := others.drop (others.length - (n + 1))) (by simp; omega)
  refine ⟨others.take (others.length - (n + 1)), p, after, ?_, ?_⟩
  · rw [← hdrop, take_append_drop]
  · have := congrArg length hdrop
    simp at this
    omega

lemma reference_drop : (m.dropLastNUserTurns env (n + 1)).referenceContextItem =
      (if (updatesAbove env m.items (n + 1)).any (isMixedUpdate env) then none
        else m.referenceContextItem) := by
  rcases h : userMessagePositions env m.items with _ | ⟨first, others⟩
  · simp [drop_none env m h]
  · obtain hlt | hge := lt_or_ge n others.length
    · obtain ⟨before, p, after, rfl, hafter⟩ := exists_split hlt
      obtain ⟨-, -, -, href, htrimmed⟩ := drop_some env m h hafter
      rw [href, htrimmed]
    · simp [drop_all env m h hge]

/-! ## What is before the first turn -/

/-- A fragment that announces a model. -/
def isModelSwitch : ContentItem → Bool
  | .inputText text => env.isModelSwitchText text
  | _ => false

/-- A message of the developer. -/
abbrev note (id phase : Option Str) (metadata : Option Passthrough) (harness : Option Unit)
    (content : List ContentItem) : Envelope :=
  ⟨.message id "developer" content phase metadata, harness⟩

/-- The item has the id of the turn. -/
def OfTurn (turn : Option Str) (e : Envelope) : Prop := turn ≠ none ∧ e.item.turnId = turn

/-- **Only announcements are taken out**, of the messages of the developer in a turn, and messages
that had nothing else in them. -/
inductive Thinned (turn : Option Str) : List Envelope → List Envelope → Prop
  | nil : Thinned turn [] []
  | keep {items kept : List Envelope} (e : Envelope) (rest : Thinned turn items kept) :
      Thinned turn (e :: items) (e :: kept)
  | thin {items kept : List Envelope} {id phase metadata harness content}
      (own : OfTurn turn (note id phase metadata harness content))
      (left : content.filter (fun c => !isModelSwitch env c) ≠ [])
        (rest : Thinned turn items kept) :
      Thinned turn (note id phase metadata harness content :: items)
        (note id phase metadata harness (content.filter fun c => !isModelSwitch env c) :: kept)
  | drop {items kept : List Envelope} {id phase metadata harness content}
      (own : OfTurn turn (note id phase metadata harness content)) (ne : content ≠ [])
      (all : ∀ c ∈ content, isModelSwitch env c) (rest : Thinned turn items kept) :
      Thinned turn (note id phase metadata harness content :: items) kept

/-- A message of the developer with nothing in it. -/
def IsEmptyNote (turn : Option Str) (e : Envelope) : Prop :=
  OfTurn turn e ∧ ∃ id phase metadata harness, e = note id phase metadata harness []

lemma thinned_self (turn : Option Str) (items : List Envelope) : Thinned env turn items items := by
  induction items with
  | nil => exact .nil
  | cons e items ih => exact .keep e ih

/-- A message of the developer with nothing in it has no announcements to take out. -/
lemma Thinned.mem_of_isEmptyNote {turn kept e} (h : Thinned env turn items kept) (he : e ∈ items)
    (hempty : IsEmptyNote turn e) : e ∈ kept := by
  obtain ⟨-, id, phase, metadata, harness, rfl⟩ := hempty
  induction h with
  | nil => exact he
  | keep e' rest ih =>
    obtain rfl | he := mem_cons.mp he
    · exact mem_cons_self
    · exact mem_cons_of_mem _ (ih he)
  | thin own left rest ih =>
    obtain heq | he := mem_cons.mp he
    · cases heq
      exact absurd rfl left
    · exact mem_cons_of_mem _ (ih he)
  | drop own ne all rest ih =>
    obtain heq | he := mem_cons.mp he
    · cases heq
      exact absurd rfl ne
    · exact ih he

variable {turn : Str}

lemma retainWithoutModelSwitch_cases (turn : Str) (e : Envelope) :
    (retainWithoutModelSwitch env turn e = some e ∧ ¬ IsEmptyNote (some turn) e) ∨
      ∃ id phase metadata harness content, e = note id phase metadata harness content ∧
        OfTurn (some turn) e ∧ retainWithoutModelSwitch env turn e =
          if content.filter (fun c => !isModelSwitch env c) = [] then none
          else some (note id phase metadata harness
            (content.filter fun c => !isModelSwitch env c)) := by
  have hfilter : (fun c : ContentItem => !isModelSwitch env c) = fun
      | .inputText text => !env.isModelSwitchText text
      | _ => true := by
    funext c
    cases c <;> rfl
  rw [hfilter]
  obtain ⟨_ | ⟨id, role, content, phase, metadata⟩ | _ | _ | _ | _ | _ | _ | _ | _ | _ | _ | _ | _ |
    _ | _ | _, harness⟩ := e
  case message =>
    by_cases hdev : (ResponseItem.message id role content phase metadata).turnId = some turn ∧
        role = "developer"
    · obtain ⟨hown, rfl⟩ := hdev
      exact .inr ⟨id, phase, metadata, harness, content, rfl, ⟨Option.some_ne_none _, hown⟩,
        if_pos ⟨hown, rfl⟩⟩
    · refine .inl ⟨if_neg hdev, ?_⟩
      rintro ⟨⟨-, hown⟩, _, _, _, _, heq⟩
      cases heq
      exact hdev ⟨hown, rfl⟩
  all_goals
    refine .inl ⟨rfl, ?_⟩
    rintro ⟨-, _, _, _, _, heq⟩
    cases heq

lemma not_isEmptyNote_of_mem_filterMap {e}
    (h : e ∈ items.filterMap (retainWithoutModelSwitch env turn)) :
    ¬ IsEmptyNote (some turn) e := by
  obtain ⟨e', -, heq⟩ := mem_filterMap.mp h
  obtain ⟨hkeep, hnot⟩ | ⟨id, phase, metadata, harness, content, -, -, hcut⟩ :=
    retainWithoutModelSwitch_cases env turn e'
  · cases hkeep.symm.trans heq
    exact hnot
  · rw [hcut] at heq
    split_ifs at heq with hnil
    cases heq
    rintro ⟨-, _, _, _, _, heq⟩
    injection heq with hitem
    injection hitem with _ _ hcontent
    exact hnil hcontent

lemma thinned_filterMap (h : ∀ e ∈ items, ¬ IsEmptyNote (some turn) e) :
    Thinned env (some turn) items (items.filterMap (retainWithoutModelSwitch env turn)) := by
  induction items with
  | nil => exact .nil
  | cons e items ih =>
    obtain ⟨hnot, hrest⟩ := forall_mem_cons.mp h
    rw [filterMap_cons]
    obtain ⟨hkeep, -⟩ | ⟨id, phase, metadata, harness, content, rfl, hown, hcut⟩ :=
      retainWithoutModelSwitch_cases env turn e
    · rw [hkeep]
      exact .keep e (ih hrest)
    · rw [hcut]
      split_ifs with hnil
      · refine .drop hown ?_ (by simpa using hnil) (ih hrest)
        rintro rfl
        exact hnot ⟨hown, id, phase, metadata, harness, rfl⟩
      · exact .thin hown hnil (ih hrest)

/-- The items before the first turn are still there, but for announcements of its model. -/
def KeepsStart (items kept : List Envelope) (first : Nat) : Prop :=
  ∃ start rest, kept = start ++ rest ∧
    Thinned env ((items[first]?).bind (·.item.turnId)) (items.take first) start

/-- The items before the first turn are kept, unless a message with nothing in it is among them. -/
lemma keepsStart_beforeFirst_iff : KeepsStart env items (beforeFirst env items first) first ↔
      ∀ e ∈ items.take first, ¬ IsEmptyNote ((items[first]?).bind (·.item.turnId)) e := by
  rw [beforeFirst, KeepsStart]
  cases (items[first]?).bind fun e => e.item.turnId with
  | none =>
    refine iff_of_true ⟨_, [], (append_nil _).symm, thinned_self env none _⟩ ?_
    exact fun e _ hempty => hempty.1.1 rfl
  | some turn =>
    constructor
    · rintro ⟨start, rest, hstart, hthinned⟩ e he hempty
      have hkept : e ∈ (items.take first).filterMap (retainWithoutModelSwitch env turn) := by
        rw [show (items.take first).filterMap (retainWithoutModelSwitch env turn) = _ from hstart]
        exact mem_append_left _ (hthinned.mem_of_isEmptyNote env he hempty)
      exact not_isEmptyNote_of_mem_filterMap env hkept hempty
    · exact fun h => ⟨_, [], (append_nil _).symm, thinned_filterMap env h⟩

/-- Nothing before the first turn is a turn. -/
lemma userMessagePositions_beforeFirst (h : userMessagePositions env items = first :: others) :
    userMessagePositions env (beforeFirst env items first) = [] := by
  have hsorted := pairwise_userMessagePositions env items
  rw [h, pairwise_cons] at hsorted
  have htake : userMessagePositions env (items.take first) = [] :=
    userMessagePositions_take env (h.trans (nil_append _).symm) (by simp) fun i hi => by
      obtain rfl | hi := mem_cons.mp hi
      · exact le_rfl
      · exact (hsorted.1 i hi).le
  have hall : ∀ e ∈ items.take first, isUserTurnBoundary env e.item = false := by
    intro e he
    obtain ⟨i, hi⟩ := mem_iff_getElem?.mp he
    by_contra hturn
    have := (mem_userMessagePositions env).mpr ⟨e, hi, by simpa using hturn⟩
    simp [htake] at this
  rw [beforeFirst]
  split
  · refine eq_nil_iff_forall_not_mem.mpr fun i hi => ?_
    obtain ⟨e, he, hturn⟩ := (mem_userMessagePositions env).mp hi
    obtain ⟨e', he', heq⟩ := mem_filterMap.mp (mem_of_getElem? he)
    obtain ⟨hkeep, -⟩ | ⟨_, _, _, _, _, -, -, hcut⟩ := retainWithoutModelSwitch_cases env _ e'
    · cases hkeep.symm.trans heq
      exact Bool.false_ne_true ((hall e he').symm.trans hturn)
    · rw [hcut] at heq
      split_ifs at heq
      cases heq
      exact Bool.false_ne_true hturn
  · exact htake

/-! ## Two rollbacks -/

lemma beforeFirst_take {c} (h : first < c) :
    beforeFirst env (items.take c) first = beforeFirst env items first := by
  rw [beforeFirst, getElem?_take_of_lt h, take_take, min_eq_left h.le, beforeFirst]

/-- **Two rollbacks leave and trim what one does.** -/
theorem drop_drop (k : Nat) :
    ((m.dropLastNUserTurns env (n + 1)).dropLastNUserTurns env (k + 1)).items =
        (m.dropLastNUserTurns env (n + 1 + (k + 1))).items ∧
      updatesAbove env (m.dropLastNUserTurns env (n + 1)).items (k + 1) =
        updatesAbove env m.items (n + 1 + (k + 1)) := by
  generalize hm : m.dropLastNUserTurns env (n + 1) = m₁
  rcases h : userMessagePositions env m.items with _ | ⟨first, others⟩
  · have hitems := (drop_none env m (n := n) h).1
    rw [hm] at hitems
    have h₁ := drop_none env m₁ (n := k) (hitems ▸ h)
    have h₂ := drop_none env m (n := n + 1 + k) h
    exact ⟨h₁.1.trans (hitems.trans h₂.1.symm), h₁.2.2.trans h₂.2.2.symm⟩
  obtain hlt | hge := lt_or_ge n others.length
  · obtain ⟨before, p, after, rfl, hafter⟩ := exists_split hlt
    obtain ⟨hpast, hle, hitems, -⟩ := drop_some env m h hafter
    have hpositions := userMessagePositions_drop_some env m h hafter
    rw [hm] at hitems hpositions
    generalize (trimPreTurnContextUpdates env m.items first p none).1 = c at *
    obtain hlt' | hge' := lt_or_ge k before.length
    · obtain ⟨before', q, after', rfl, hafter'⟩ := exists_split hlt'
      obtain ⟨-, -, hitems₁, -, htrimmed₁⟩ := drop_some env m₁ hpositions hafter'
      have hall : userMessagePositions env m.items =
          first :: before' ++ q :: (after' ++ p :: after) := by
        simpa using h
      obtain ⟨-, hle₂, hitems₂, -, htrimmed₂⟩ := drop_some env m (n := n + 1 + k) hall
        (by simp; omega)
      have hq : q ≤ c := (hpast q (by simp)).le
      rw [hitems, trimPreTurnContextUpdates_take env first hq, take_take] at hitems₁ htrimmed₁
      rw [min_eq_left (hle₂.trans hq)] at hitems₁
      rw [min_eq_left hq] at htrimmed₁
      exact ⟨hitems₁.trans hitems₂.symm, (hitems ▸ htrimmed₁).trans htrimmed₂.symm⟩
    · have h₁ := drop_all env m₁ hpositions hge'
      have h₂ := drop_all env m (n := n + 1 + k) h (by simp; omega)
      rw [hitems, beforeFirst_take env (hpast first mem_cons_self)] at h₁
      exact ⟨h₁.1.trans h₂.1.symm, (hitems ▸ h₁.2.2).trans h₂.2.2.symm⟩
  · have hitems := (drop_all env m h hge).1
    rw [hm] at hitems
    have hnone : userMessagePositions env m₁.items = [] := by
      rw [hitems]
      exact userMessagePositions_beforeFirst env h
    have h₁ := drop_none env m₁ (n := k) hnone
    have h₂ := drop_all env m (n := n + 1 + k) h (by omega)
    exact ⟨h₁.1.trans (hitems.trans h₂.1.symm), h₁.2.2.trans h₂.2.2.symm⟩

/-- **Rollbacks compose**, as far as the items go.  The reference context is the same, unless it is
cleared only by what the first of two rollbacks trims.  A rollback leaves what is before the first
turn, but for the announcements of its model, unless it takes off all turns and a message with
nothing in it with them. -/
theorem rollbacks_compose_iff (n k : Nat) :
    ((m.dropLastNUserTurns env (n + 1)).dropLastNUserTurns env (k + 1)).items =
      (m.dropLastNUserTurns env (n + 1 + (k + 1))).items ∧
    (((m.dropLastNUserTurns env (n + 1)).dropLastNUserTurns env (k + 1)).referenceContextItem =
        (m.dropLastNUserTurns env (n + 1 + (k + 1))).referenceContextItem ↔
      m.referenceContextItem = none ∨ (ClearsReference env m.items (n + 1) →
        ClearsReference env m.items (n + 1 + (k + 1)))) ∧
    match userMessagePositions env m.items with
    | [] => (m.dropLastNUserTurns env (n + 1)).items = m.items
    | first :: others =>
      KeepsStart env m.items (m.dropLastNUserTurns env (n + 1)).items first ↔
        n < others.length ∨ ∀ e ∈ m.items.take first,
          ¬ IsEmptyNote ((m.items[first]?).bind (·.item.turnId)) e := by
  obtain ⟨hitems, htrimmed⟩ := drop_drop env m (n := n) k
  refine ⟨hitems, ?_, ?_⟩
  · have hany (numTurns : Nat) : ClearsReference env m.items numTurns ↔
        (updatesAbove env m.items numTurns).any (isMixedUpdate env) = true := by
      rw [ClearsReference, any_eq_true]
    rw [reference_drop, reference_drop, htrimmed, ← add_assoc, reference_drop, hany, hany]
    cases m.referenceContextItem <;> split_ifs <;> simp_all
  · rcases h : userMessagePositions env m.items with _ | ⟨first, others⟩
    · exact (drop_none env m h).1
    · obtain hlt | hge := lt_or_ge n others.length
      · refine iff_of_true ?_ (.inl hlt)
        obtain ⟨before, p, after, rfl, hafter⟩ := exists_split hlt
        obtain ⟨hpast, -, hitems, -⟩ := drop_some env m h hafter
        have hstart : m.items.take first <+: m.items.take _ :=
          take_prefix_take_left (hpast first mem_cons_self).le
        obtain ⟨rest, hrest⟩ := hstart
        exact ⟨_, rest, hitems.trans hrest.symm, thinned_self env _ _⟩
      · rw [(drop_all env m h hge).1]
        exact (keepsStart_beforeFirst_iff env).trans (or_iff_right hge.not_gt).symm

end ContextManager

/-! ## A context that is not cleared -/

/-- Every message of a developer is a context with other instructions in it. -/
def bundleEnv : Env where
  isContextualUserMessageContent _ := false
  isContextualDevMessageContent _ := true
  hasNonContextualDevMessageContent _ := true
  isModelSwitchText _ := false
  isInterAgentText _ := false
  truncateOutputText := id
  truncateOutputItems := id
  userMessageText _ := none
  summaryHead := []
  approxTokenCount _ := 0
  truncateToTokens _ := id

/-- Two turns, with a bundle before the second. -/
def bundleHistory : ContextManager where
  items := ["user", "developer", "user"].map fun role =>
    ⟨.message none role.toList [] none none, none⟩
  referenceContextItem := some ⟨none, [], none, none, []⟩

/-- A turn, and before it a message of the developer with nothing in it. -/
def emptyNoteHistory : ContextManager where
  items := ["developer", "user"].map fun role =>
    ⟨.message none role.toList [] none (some ⟨some ['t'], none⟩), none⟩

/-- Taken off one after the other, the turns leave no reference context; taken off at once, they
leave the one there was, though the bundle is gone.  And a message before the first turn is lost
that announces nothing. -/
theorem not_rollbacks_compose_bundle :
    ((bundleHistory.dropLastNUserTurns bundleEnv 1).dropLastNUserTurns bundleEnv
        1).referenceContextItem ≠
      (bundleHistory.dropLastNUserTurns bundleEnv (1 + 1)).referenceContextItem ∧
    userMessagePositions bundleEnv emptyNoteHistory.items = [1] ∧
    (emptyNoteHistory.dropLastNUserTurns bundleEnv 1).items = [] := by
  decide

end Session
