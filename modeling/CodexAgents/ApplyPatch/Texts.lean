import CodexAgents.ApplyPatch.Apply

/-!
# Hunks as functions on texts

What a file system looks like to a patch is a partial map from paths to texts, and a hunk with its
paths resolved is a partial function on such maps (`ResolvedHunk.step`).  It can also be read as a
demand: going by the texts in the beginning, this is what the hunk is to leave at its paths
(`ResolvedHunk.demands`).

The hunks of a patch are carried out one after the other.  A hunk can find other texts than those in
the beginning, because the destination of a rename before it was one of its paths.
`run_performed_iff` says exactly when all demands are met in the end, provided each hunk applies to
the texts in the beginning and no two have the same source:

* no two hunks demand different things of one path (`Consistent`), and
* if a file that is updated in place has been overwritten by a rename before, its chunks apply to
  the new contents as well, and leave them as they are or are followed by another such rename
  (`Reapplies`).
-/

namespace ApplyPatch

open Text List Option Function

/-! ## Resolved hunks -/

/-- A hunk with its paths resolved. -/
inductive ResolvedHunk (P : Type) where
  | add (path : P) (contents : Str)
  | delete (path : P)
  | update (path : P) (dest : Option P) (chunks : List UpdateFileChunk)

variable {P : Type}

namespace ResolvedHunk

/-- The path a hunk is about. -/
def source : ResolvedHunk P → P
  | .add path _ => path
  | .delete path => path
  | .update path _ _ => path

/-- Where a rename goes. -/
def dest : ResolvedHunk P → Option P
  | .update _ dest _ => dest
  | _ => none

/-- The paths the hunk is about. -/
def names (h : ResolvedHunk P) : List P := h.source :: h.dest.toList

end ResolvedHunk

open ResolvedHunk

/-- A hunk with its paths. -/
def resolveHunk {P : Type} (paths : PathUris P) (cwd : P) (hunk : Hunk) :
    Except Str (ResolvedHunk P) := do
  let path ← paths.join cwd hunk.sourcePath
  match hunk with
  | .addFile _ contents => return .add path contents
  | .deleteFile _ => return .delete path
  | .updateFile _ none chunks => return .update path none chunks
  | .updateFile _ (some dest) chunks =>
    let dest ← paths.join cwd dest
    return .update path (some dest) chunks

/-- The hunks are these, with their paths resolved. -/
def Resolves {P : Type} (paths : PathUris P) (cwd : P) : List Hunk → List (ResolvedHunk P) → Prop :=
  List.Forall₂ fun hunk h => resolveHunk paths cwd hunk = .ok h

section

variable [DecidableEq P] (paths : PathUris P) (mode : ApplyPatchFileUpdateMode) (F : P → Option Str)

/-- The contents an update gives a file. -/
def newText (path : P) (chunks : List UpdateFileChunk) : Option Str :=
  (F path).bind fun contents =>
    (newContentsFromChunks (paths.inferredNativePathString path) contents chunks mode).toOption

/-- **A hunk as a function on texts**, if it can be applied. -/
def ResolvedHunk.step : ResolvedHunk P → Option (P → Option Str)
  | .add path contents => some (Function.update F path (some contents))
  | .delete path => (F path).map fun _ => Function.update F path none
  | .update path none chunks =>
    (newText paths mode F path chunks).map fun new => Function.update F path (some new)
  | .update path (some dest) chunks =>
    (newText paths mode F path chunks).map fun new =>
      Function.update (Function.update F dest (some new)) path none

/-- What a hunk is to leave at which path, going by the texts in the beginning. -/
def ResolvedHunk.demands : ResolvedHunk P → List (P × Option Str)
  | .add path contents => [(path, some contents)]
  | .delete path => [(path, none)]
  | .update path none chunks => [(path, newText paths mode F path chunks)]
  | .update path (some dest) chunks => [(path, none), (dest, newText paths mode F path chunks)]

/-- **No two changes want different contents for one path.** -/
def Consistent (hs : List (ResolvedHunk P)) : Prop :=
  ∀ h ∈ hs, ∀ h' ∈ hs, ∀ d ∈ h.demands paths mode F, ∀ d' ∈ h'.demands paths mode F,
    d.1 = d'.1 → d.2 = d'.2

instance (F : P → Option Str) (hs : List (ResolvedHunk P)) :
    Decidable (Consistent paths mode F hs) := by
  unfold Consistent
  infer_instance

/-- **If a rename comes before an update in place of its destination**, the chunks of the update
apply to its own result, and leave it as it is or are followed by another rename to the path. -/
def Reapplies (hs : List (ResolvedHunk P)) : Prop :=
  ∀ pre path chunks post, hs = pre ++ .update path none chunks :: post →
    (∃ h ∈ pre, h.dest = some path) →
    ∃ new again, newText paths mode F path chunks = some new ∧
      newContentsFromChunks (paths.inferredNativePathString path) new chunks mode = .ok again ∧
      (again = new ∨ ∃ h ∈ post, h.dest = some path)

/-- The hunk can be applied to these texts. -/
def Applicable (h : ResolvedHunk P) : Prop := (h.step paths mode F).isSome = true

end

/-! ## Running hunks on texts -/

section

variable [DecidableEq P] {paths : PathUris P} {mode : ApplyPatchFileUpdateMode}
  {F₀ F F' : P → Option Str} {h : ResolvedHunk P} {hs : List (ResolvedHunk P)} {q : P}

omit [DecidableEq P] in
lemma mem_names_iff (paths : PathUris P) (mode : ApplyPatchFileUpdateMode) (F : P → Option Str) :
    q ∈ h.names ↔ ∃ v, (q, v) ∈ h.demands paths mode F := by
  rcases h with ⟨p, c⟩ | p | ⟨p, _ | d, chunks⟩ <;>
    simp [names, source, dest, demands,
      exists_or]

omit [DecidableEq P] in
lemma newText_congr (hp : F q = F' q) (chunks : List UpdateFileChunk) :
    newText paths mode F q chunks = newText paths mode F' q chunks := by
  rw [newText, newText, hp]

/-- A hunk leaves every path alone that it is not about. -/
lemma step_of_not_mem (hstep : h.step paths mode F = some F') (hq : q ∉ h.names) : F' q = F q := by
  have hsource : q ≠ h.source := fun heq => hq (heq ▸ mem_cons_self)
  obtain ⟨p, c⟩ | p | ⟨p, _ | d, chunks⟩ := h
  · obtain rfl := some.inj hstep
    exact update_of_ne hsource _ _
  · obtain ⟨_, -, rfl⟩ := map_eq_some_iff.mp hstep
    exact update_of_ne hsource _ _
  · obtain ⟨_, -, rfl⟩ := map_eq_some_iff.mp hstep
    exact update_of_ne hsource _ _
  · obtain ⟨_, -, rfl⟩ := map_eq_some_iff.mp hstep
    obtain ⟨hp, hd⟩ : q ≠ p ∧ q ≠ d := by
      simpa [names, source, dest] using hq
    rw [update_of_ne hp, update_of_ne hd]

omit [DecidableEq P] in
lemma eq_update_of_dest (hdest : h.dest = some q) : ∃ p chunks, h = .update p (some q) chunks := by
  rcases h with ⟨p, c⟩ | p | ⟨p, _ | d, chunks⟩ <;> cases hdest
  exact ⟨p, chunks, rfl⟩

lemma run_concat_eq_some_iff : (hs ++ [h]).foldlM (step paths mode) F = some F' ↔
      ∃ G, hs.foldlM (step paths mode) F = some G ∧ h.step paths mode G = some F' := by
  simp [foldlM_append, bind_eq_some_iff]

lemma run_of_not_mem (hrun : hs.foldlM (step paths mode) F = some F')
    (hq : ∀ h ∈ hs, q ∉ h.names) : F' q = F q := by
  induction hs generalizing F with
  | nil => cases hrun; rfl
  | cons h hs ih =>
    obtain ⟨G, hstep, hrest⟩ := bind_eq_some_iff.mp hrun
    rw [ih hrest fun h' hh' => hq h' (mem_cons_of_mem h hh'),
      step_of_not_mem hstep (hq h mem_cons_self)]

/-- Only the source of a hunk is to be absent. -/
lemma eq_source_of_demands_none (happ : Applicable paths mode F h)
    (hq : (q, none) ∈ h.demands paths mode F) : q = h.source := by
  obtain ⟨p, c⟩ | p | ⟨p, _ | d, chunks⟩ := h
  · simp [demands] at hq
  · simpa [demands, source] using hq
  · simp only [demands, mem_singleton, Prod.mk.injEq] at hq
    exact hq.1
  · simp only [demands, mem_cons, not_mem_nil, or_false, Prod.mk.injEq, and_true] at hq
    obtain rfl | ⟨-, hnone⟩ := hq
    · rfl
    · simp [Applicable, step, ← hnone] at happ

section

variable (happ : ∀ h ∈ hs, Applicable paths mode F₀ h) (hnodup : (hs.map (·.source)).Nodup)
  (hcons : Consistent paths mode F₀ hs)

omit [DecidableEq P] in
include hnodup in
/-- The sources of a patch are different. -/
lemma source_ne {pre post} (hsplit : hs = pre ++ h :: post) :
    h.source ∉ pre.map (·.source) ∧ h.source ∉ post.map (·.source) := by
  rw [hsplit, map_append, map_cons] at hnodup
  have hmid := (nodup_middle.mp hnodup)
  rw [nodup_cons, mem_append, not_or] at hmid
  exact hmid.1

include happ hnodup hcons in
/-- A path that a hunk is to leave absent is in no hunk before it. -/
lemma not_mem_names_before {pre post} (hsplit : hs = pre ++ h :: post)
    (hnone : (h.source, none) ∈ h.demands paths mode F₀) : ∀ h' ∈ pre, h.source ∉ h'.names := by
  intro h' hh' hmem
  obtain ⟨v, hv⟩ := (mem_names_iff paths mode F₀).mp hmem
  have hmem' : h' ∈ hs := by rw [hsplit]; exact mem_append_left _ hh'
  have hmemh : h ∈ hs := by rw [hsplit]; simp
  obtain rfl : v = none := hcons h' hmem' h hmemh _ hv _ hnone rfl
  have hsame := eq_source_of_demands_none (happ h' hmem') hv
  exact (source_ne hnodup hsplit).1 (hsame ▸ mem_map_of_mem hh')

include happ hnodup hcons in
/-- **The texts after some of the hunks**: paths they are not about are as they were, and the
destinations of renames hold what they are to hold, as long as they have not been a source too. -/
theorem run_spec {pre post} (hsplit : hs = pre ++ post)
    (hrun : pre.foldlM (step paths mode) F₀ = some F) :
    (∀ q, (∀ h ∈ pre, q ∉ h.names) → F q = F₀ q) ∧
    ∀ h ∈ pre, ∀ d ∈ h.demands paths mode F₀, d.1 ∉ pre.map (·.source) → F d.1 = d.2 := by
  refine ⟨fun q hq => run_of_not_mem hrun hq, ?_⟩
  induction pre using reverseRecOn generalizing post F with
  | nil => simp
  | append_singleton pre h ih =>
    obtain ⟨G, hpre, hstep⟩ := run_concat_eq_some_iff.mp hrun
    have hsplit' : hs = pre ++ h :: post := by rw [hsplit]; simp
    rintro h' hh' ⟨q, v⟩ hd hq
    simp only at hq ⊢
    simp only [map_append, map_cons, map_nil, mem_append, mem_singleton, not_or] at hq
    by_cases hnamed : q ∈ h.names
    · -- the last hunk is a rename to `q`, and its source is as it was in the beginning
      have hmem' : h' ∈ hs := by rw [hsplit]; exact mem_append_left _ hh'
      have hmemh : h ∈ hs := by rw [hsplit']; simp
      obtain rfl | hdest := mem_cons.mp hnamed
      · exact absurd rfl hq.2
      obtain ⟨p, chunks, rfl⟩ := eq_update_of_dest (mem_toList.mp hdest)
      have hp : G p = F₀ p := run_of_not_mem hpre
        (not_mem_names_before happ hnodup hcons hsplit' (by simp [demands,
          source]))
      obtain ⟨new, hnew, rfl⟩ := map_eq_some_iff.mp hstep
      have hqp : q ≠ p := hq.2
      rw [newText_congr hp] at hnew
      rw [update_of_ne hqp, update_self, ← hnew]
      exact hcons _ hmemh h' hmem' (q, newText paths mode F₀ p chunks)
        (by simp [demands]) _ hd rfl
    · rw [step_of_not_mem hstep hnamed]
      obtain hh' | hh' := mem_append.mp hh'
      · exact ih hsplit' hpre h' hh' (q, v) hd hq.1
      · rw [mem_singleton.mp hh'] at hd
        exact absurd ((mem_names_iff paths mode F₀).mpr ⟨v, hd⟩) hnamed

include happ hnodup hcons in
/-- The next hunk can be applied, and leaves what it is to leave or what a rename will mend. -/
lemma exists_step (hre : Reapplies paths mode F₀ hs) {pre post}
    (hsplit : hs = pre ++ h :: post)
    (hrun : pre.foldlM (step paths mode) F₀ = some F) :
    ∃ F', h.step paths mode F = some F' ∧
      ∀ d ∈ h.demands paths mode F₀, F' d.1 = d.2 ∨ ∃ k ∈ post, k.dest = some d.1 := by
  have hmemh : h ∈ hs := by rw [hsplit]; simp
  obtain ⟨hunnamed, hnamed⟩ := run_spec happ hnodup hcons hsplit hrun
  have habsent := not_mem_names_before happ hnodup hcons hsplit
  have happh := happ h hmemh
  obtain ⟨p, c⟩ | p | ⟨p, _ | d, chunks⟩ := h
  · refine ⟨_, rfl, fun d hd => .inl ?_⟩
    obtain rfl : d = (p, some c) := mem_singleton.mp hd
    exact update_self ..
  · have hp : F p = F₀ p := hunnamed p (habsent mem_cons_self)
    obtain ⟨c, hc⟩ : ∃ c, F₀ p = some c := by
      simpa [Applicable, step, isSome_iff_exists] using happh
    refine ⟨update F p none, by simp [step, hp, hc], fun d hd => .inl ?_⟩
    obtain rfl : d = (p, none) := mem_singleton.mp hd
    exact update_self ..
  · obtain ⟨new, hnew⟩ : ∃ new, newText paths mode F₀ p chunks = some new := by
      simpa [Applicable, step, isSome_iff_exists] using happh
    by_cases hbefore : ∃ h' ∈ pre, p ∈ h'.names
    · -- a rename has put the new contents here already
      obtain ⟨h', hh', hmem⟩ := hbefore
      have hsource := (source_ne hnodup hsplit).1
      obtain ⟨w, hw⟩ := (mem_names_iff paths mode F₀).mp hmem
      have hmem' : h' ∈ hs := by rw [hsplit]; exact mem_append_left _ hh'
      have hdest : h'.dest = some p := by
        obtain heq | hdest := mem_cons.mp hmem
        · exact absurd (mem_map.mpr ⟨h', hh', heq.symm⟩) hsource
        · exact mem_toList.mp hdest
      have hp : F p = some new := by
        have hpw : F p = w := hnamed h' hh' (p, w) hw hsource
        rw [hpw, ← hnew]
        exact hcons h' hmem' _ hmemh _ hw _ (mem_singleton.mpr rfl) rfl
      obtain ⟨new', again, hnew', hagain, hafter⟩ := hre pre p chunks post hsplit ⟨h', hh', hdest⟩
      obtain rfl : new = new' := some.inj (hnew.symm.trans hnew')
      refine ⟨update F p (some again), ?_, fun d hd => ?_⟩
      · simp [step, newText, hp, hagain, Except.toOption]
      · obtain rfl : d = (p, newText paths mode F₀ p chunks) := mem_singleton.mp hd
        rw [hnew]
        refine hafter.imp_left fun heq => ?_
        rw [update_self, heq]
    · have hp : F p = F₀ p := hunnamed p fun h' hh' hmem => hbefore ⟨h', hh', hmem⟩
      refine ⟨update F p (some new), ?_, fun d hd => .inl ?_⟩
      · simp [step, newText_congr hp, hnew]
      · obtain rfl : d = (p, newText paths mode F₀ p chunks) := mem_singleton.mp hd
        rw [hnew]
        exact update_self ..
  · obtain ⟨new, hnew⟩ : ∃ new, newText paths mode F₀ p chunks = some new := by
      simpa [Applicable, step, isSome_iff_exists] using happh
    have hp : F p = F₀ p := hunnamed p (habsent mem_cons_self)
    have hdp : d ≠ p := by
      rintro rfl
      have hclash := hcons _ hmemh _ hmemh (d, none) mem_cons_self
        (d, newText paths mode F₀ d chunks) (mem_cons_of_mem _ mem_cons_self) rfl
      rw [hnew] at hclash
      cases hclash
    refine ⟨update (update F d (some new)) p none, ?_, fun d' hd' => .inl ?_⟩
    · simp [step, newText_congr hp, hnew]
    · obtain rfl | hd' := mem_cons.mp hd'
      · exact update_self ..
      · obtain rfl := mem_singleton.mp hd'
        rw [update_of_ne hdp, update_self, hnew]

include happ hnodup hcons in
/-- **All hunks can be applied.**  After some of them, every path they are about holds what it is to
hold, or is the destination of a rename that is still to come. -/
theorem exists_run (hre : Reapplies paths mode F₀ hs) {pre post}
    (hsplit : hs = pre ++ post) :
    ∃ F, pre.foldlM (step paths mode) F₀ = some F ∧
      ∀ h ∈ pre, ∀ d ∈ h.demands paths mode F₀, F d.1 = d.2 ∨ ∃ k ∈ post, k.dest = some d.1 := by
  induction pre using reverseRecOn generalizing post with
  | nil => exact ⟨F₀, rfl, by simp⟩
  | append_singleton pre h ih =>
    have hsplit' : hs = pre ++ h :: post := by rw [hsplit]; simp
    have hmemh : h ∈ hs := by rw [hsplit']; simp
    obtain ⟨G, hrun, hG⟩ := ih hsplit'
    obtain ⟨F, hF, hdemands⟩ := exists_step happ hnodup hcons hre hsplit' hrun
    refine ⟨F, run_concat_eq_some_iff.mpr ⟨G, hrun, hF⟩, fun h' hh' => ?_⟩
    rintro ⟨q, v⟩ hd
    have hmem' : h' ∈ hs := by rw [hsplit]; exact mem_append_left _ hh'
    by_cases hq : q ∈ h.names
    · obtain ⟨w, hw⟩ := (mem_names_iff paths mode F₀).mp hq
      obtain rfl : v = w := hcons h' hmem' h hmemh _ hd _ hw rfl
      exact hdemands (q, v) hw
    · obtain hh' | hh' := mem_append.mp hh'
      · simp only
        rw [step_of_not_mem hF hq]
        refine (hG h' hh' (q, v) hd).imp_right ?_
        rintro ⟨k, hk, hdest⟩
        obtain rfl | hk := mem_cons.mp hk
        · exact absurd (mem_cons_of_mem _ (mem_toList.mpr hdest)) hq
        · exact ⟨k, hk, hdest⟩
      · rw [mem_singleton.mp hh'] at hd
        exact absurd ((mem_names_iff paths mode F₀).mpr ⟨v, hd⟩) hq

end

/-- **When the hunks do what they were to do**, on texts to which each of them applies. -/
theorem run_performed_iff (happ : ∀ h ∈ hs, Applicable paths mode F₀ h)
    (hnodup : (hs.map (·.source)).Nodup) :
    (∃ F, hs.foldlM (step paths mode) F₀ = some F ∧
      (∀ h ∈ hs, ∀ d ∈ h.demands paths mode F₀, F d.1 = d.2) ∧
      ∀ q, (∀ h ∈ hs, q ∉ h.names) → F q = F₀ q) ↔
    Consistent paths mode F₀ hs ∧ Reapplies paths mode F₀ hs := by
  constructor
  · rintro ⟨F, hrun, hdemands, -⟩
    have hcons : Consistent paths mode F₀ hs := by
      intro h hh h' hh' d hd d' hd' heq
      rw [← hdemands h hh d hd, ← hdemands h' hh' d' hd', heq]
    refine ⟨hcons, ?_⟩
    rintro pre p chunks post hsplit ⟨h', hh', hdest⟩
    obtain ⟨hpre, hpost⟩ := source_ne hnodup hsplit
    have hmemh : .update p none chunks ∈ hs := by rw [hsplit]; simp
    have hmem' : h' ∈ hs := by rw [hsplit]; exact mem_append_left _ hh'
    rw [hsplit, foldlM_append] at hrun
    obtain ⟨G, hG, hrest⟩ := bind_eq_some_iff.mp hrun
    obtain ⟨G', hstep, hrest⟩ := bind_eq_some_iff.mp hrest
    have hnew : ∃ new, newText paths mode F₀ p chunks = some new := by
      simpa [Applicable, step, isSome_iff_exists] using happ _ hmemh
    obtain ⟨new, hnew⟩ := hnew
    -- what the update finds is what it is to leave
    have hp : G p = some new := by
      obtain ⟨w, hw⟩ := (mem_names_iff paths mode F₀).mp
        (mem_cons_of_mem h'.source (mem_toList.mpr hdest))
      have hpw : G p = w := (run_spec happ hnodup hcons hsplit hG).2 h' hh' (p, w) hw hpre
      rw [hpw, ← hnew]
      exact hcons h' hmem' _ hmemh _ hw _ (mem_singleton.mpr rfl) rfl
    obtain ⟨again, hagain, rfl⟩ := map_eq_some_iff.mp hstep
    have hagain' : newContentsFromChunks (paths.inferredNativePathString p) new chunks mode =
        .ok again := by
      rw [newText, hp, bind_some] at hagain
      rcases hc : newContentsFromChunks (paths.inferredNativePathString p) new chunks mode with
        e | r <;> rw [hc] at hagain <;> cases hagain
      rfl
    refine ⟨new, again, hnew, hagain', ?_⟩
    by_contra hneither
    obtain ⟨hne, hnone⟩ := not_or.mp hneither
    refine hne (some.inj ?_)
    have hkeep : F p = update G p (some again) p := by
      refine run_of_not_mem hrest fun h hh hmem => ?_
      obtain heq | hd := mem_cons.mp hmem
      · exact hpost (mem_map.mpr ⟨h, hh, heq.symm⟩)
      · exact hnone ⟨h, hh, mem_toList.mp hd⟩
    rw [update_self] at hkeep
    rw [← hkeep, ← hnew]
    exact hdemands _ hmemh _ (mem_singleton.mpr rfl)
  · rintro ⟨hcons, hre⟩
    obtain ⟨F, hrun, hdemands⟩ := exists_run happ hnodup hcons hre (append_nil hs).symm
    refine ⟨F, hrun, fun h hh d hd => ?_, fun q hq => run_of_not_mem hrun hq⟩
    obtain hd | ⟨k, hk, -⟩ := hdemands h hh d hd
    · exact hd
    · cases hk

end

end ApplyPatch
