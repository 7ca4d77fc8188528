import BoringPanel.QueryService.LogParsingPipeline.CollectorConfig

/-!
# The pipelines in effect

The list that a user saves has the user's own pipelines and those of installed integrations, which the user
may reorder and enable or disable. `getEffectivePipelinesByVersion` puts the current pipelines of the
installed integrations into it: the first saved one with the alias is replaced, the others come to the end
(`placePipeline`), and saved pipelines with the prefix of integrations are dropped where no installed one
has their alias.

The prefix alone does not make a pipeline one of an integration (`integrationIdForPipeline` wants a separator
too), so a user's pipeline may be dropped, and of several saved ones with the alias of an integration only the
first is replaced. `effective_iff` says when the list is the one wanted.
-/

namespace QueryService.LogParsingPipeline

/-- A pipeline as it is stored, `Pipeline` with all its fields. -/
structure StoredPipeline (F : Type) extends Pipeline F where
  id : String
  orderId : Int
  name : String
  description : Option String
  createdBy : String
  createdAt : Int

/-! ### Aliases of integrations -/

/-- `constants.IntegrationPipelineIdPrefix`. -/
def integrationPipelineIdPrefix : String := "integration"

/-- `AliasForIntegrationPipeline`. -/
def aliasForIntegrationPipeline (integrationId pipelineName : String) : String :=
  Go.join "--" [integrationPipelineIdPrefix, integrationId, pipelineName]

/-- `strings.Split(s, "--")`, with the beginning of the first part. -/
def splitSeparator (part : List Char) : List Char → List (List Char)
  | [] => [part]
  | '-' :: '-' :: s => part :: splitSeparator [] s
  | c :: s => splitSeparator (part ++ [c]) s

/-- `IntegrationIdForPipeline`. -/
def integrationIdForPipeline (alias_ : String) : Option String :=
  if Go.hasPrefix alias_ integrationPipelineIdPrefix then
    (splitSeparator [] alias_.toList)[1]?.map String.ofList
  else none

theorem splitSeparator_ne_nil (part s : List Char) : splitSeparator part s ≠ [] := by
  fun_induction splitSeparator part s with
  | case1 part => exact List.cons_ne_nil _ _
  | case2 part s ih => exact List.cons_ne_nil _ _
  | case3 part c s hne ih => exact ih

theorem integrationId_alias (integrationId pipelineName : String) :
    (integrationIdForPipeline (aliasForIntegrationPipeline integrationId pipelineName)).isSome := by
  have htext : (aliasForIntegrationPipeline integrationId pipelineName).toList =
      "integration".toList ++ '-' :: '-' :: (integrationId ++ "--" ++ pipelineName).toList := by
    simp [aliasForIntegrationPipeline, Go.join, integrationPipelineIdPrefix]
  have hstarts : Go.hasPrefix (aliasForIntegrationPipeline integrationId pipelineName)
      integrationPipelineIdPrefix := by
    rw [Go.hasPrefix, htext, List.isPrefixOf_iff_prefix]
    exact List.prefix_append _ _
  have hsplit : ∀ s, splitSeparator [] ("integration".toList ++ '-' :: '-' :: s) =
      "integration".toList :: splitSeparator [] s := fun s => by
    simp [splitSeparator]
  rw [integrationIdForPipeline, if_pos hstarts, htext, hsplit, List.getElem?_cons_succ, Option.isSome_map]
  cases h : splitSeparator [] (integrationId ++ "--" ++ pipelineName).toList with
  | nil => exact absurd h (splitSeparator_ne_nil _ _)
  | cons part rest => rfl

section Effective

variable {F : Type}

/-- One turn of the loop over the installed pipelines. -/
def placePipeline (result : List (StoredPipeline F)) (ip : StoredPipeline F) : List (StoredPipeline F) :=
  match result.findIdx? fun p => p.alias_ = ip.alias_ with
  | some i => result.modify i fun p => { ip with enabled := p.enabled }
  | none => result ++ [ip]

/-- The list, from the saved pipelines and those of the installed integrations. -/
def effectivePipelines (saved integrationPipelines : List (StoredPipeline F)) : List (StoredPipeline F) :=
  let ipAliases := integrationPipelines.map fun p => p.alias_
  let result := saved.filter fun p =>
    !Go.hasPrefix p.alias_ integrationPipelineIdPrefix || ipAliases.contains p.alias_
  (integrationPipelines.foldl placePipeline result).mapIdx fun idx p => { p with orderId := idx + 1 }

/-- `model.WrapApiError`. -/
def wrapApiError (msg : String) : ApiError → ApiError
  | .badRequest message => .badRequest (msg ++ ": " ++ message)
  | .internalError message => .internalError (msg ++ ": " ++ message)
  | .panic => .panic

/-- The pipelines saved with a version, none for what is no version; `none` where they are not read. -/
def savedPipelines (getPipelinesByVersion : Int → Option (List (StoredPipeline F))) (version : Int) :
    Option (List (StoredPipeline F)) :=
  if 0 ≤ version then getPipelinesByVersion version else some []

def getEffectivePipelinesByVersion (getPipelinesByVersion : Int → Option (List (StoredPipeline F)))
    (getIntegrationPipelines : Except ApiError (List (StoredPipeline F))) (version : Int) :
    Except ApiError (List (StoredPipeline F)) :=
  match savedPipelines getPipelinesByVersion version with
  | none => .error (.internalError "failed to get pipelines for given version")
  | some saved =>
    match getIntegrationPipelines with
    | .error apiErr => .error (wrapApiError "could not get pipelines for installed integrations" apiErr)
    | .ok integrationPipelines => .ok (effectivePipelines saved integrationPipelines)

/-! ### Placing one pipeline -/

/-- The pipelines with an alias. -/
def withAlias (alias_ : String) (l : List (StoredPipeline F)) : List (StoredPipeline F) :=
  l.filter fun p => p.alias_ = alias_

/-- What is put for the pipelines with the alias of an installed one: the first is replaced. -/
def replaced (ip : StoredPipeline F) : List (StoredPipeline F) → List (StoredPipeline F)
  | [] => [ip]
  | p :: rest => { ip with enabled := p.enabled } :: rest

theorem placePipeline_cons_of_eq {p ip : StoredPipeline F} (h : p.alias_ = ip.alias_)
    (l : List (StoredPipeline F)) :
    placePipeline (p :: l) ip = { ip with enabled := p.enabled } :: l := by
  rw [placePipeline, List.findIdx?_cons, if_pos (by simpa using h)]
  rfl

theorem placePipeline_cons_of_ne {p ip : StoredPipeline F} (h : p.alias_ ≠ ip.alias_)
    (l : List (StoredPipeline F)) : placePipeline (p :: l) ip = p :: placePipeline l ip := by
  rw [placePipeline, List.findIdx?_cons, if_neg (by simpa using h), placePipeline]
  cases l.findIdx? fun p => p.alias_ = ip.alias_ with
  | none => rfl
  | some i => rfl

/-- The pipelines with other aliases stay. -/
theorem filter_placePipeline {q : String → Bool} {ip : StoredPipeline F} (hq : q ip.alias_ = false)
    (l : List (StoredPipeline F)) :
    (placePipeline l ip).filter (fun p => q p.alias_) = l.filter fun p => q p.alias_ := by
  induction l with
  | nil => exact List.filter_cons_of_neg (by simp [hq])
  | cons p l ih =>
    by_cases hp : p.alias_ = ip.alias_
    · rw [placePipeline_cons_of_eq hp, List.filter_cons_of_neg (by simp [hq]),
        List.filter_cons_of_neg (by simp [hp, hq])]
    · rw [placePipeline_cons_of_ne hp, List.filter_cons, List.filter_cons, ih]

theorem withAlias_placePipeline (l : List (StoredPipeline F)) (ip : StoredPipeline F) :
    withAlias ip.alias_ (placePipeline l ip) = replaced ip (withAlias ip.alias_ l) := by
  induction l with
  | nil => exact List.filter_cons_of_pos (by simp)
  | cons p l ih =>
    by_cases hp : p.alias_ = ip.alias_
    · rw [placePipeline_cons_of_eq hp, withAlias, withAlias, List.filter_cons_of_pos (by simp),
        List.filter_cons_of_pos (by simp [hp]), replaced]
    · rw [placePipeline_cons_of_ne hp, withAlias, withAlias, List.filter_cons_of_neg (by simp [hp]),
        List.filter_cons_of_neg (by simp [hp])]
      exact ih

/-! ### Placing all of them -/

/-- Pipelines whose alias no installed one has stay. -/
theorem filter_foldl_placePipeline {q : String → Bool} {ips : List (StoredPipeline F)}
    (hq : ∀ ip ∈ ips, q ip.alias_ = false) (l : List (StoredPipeline F)) :
    (ips.foldl placePipeline l).filter (fun p => q p.alias_) = l.filter fun p => q p.alias_ := by
  induction ips generalizing l with
  | nil => rfl
  | cons ip ips ih =>
    rw [List.foldl_cons, ih fun ip' h => hq ip' (List.mem_cons_of_mem _ h),
      filter_placePipeline (hq ip List.mem_cons_self)]

theorem withAlias_foldl_placePipeline {ips : List (StoredPipeline F)}
    (hips : (ips.map fun p => p.alias_).Nodup) {ip : StoredPipeline F} (hip : ip ∈ ips)
    (l : List (StoredPipeline F)) :
    withAlias ip.alias_ (ips.foldl placePipeline l) = replaced ip (withAlias ip.alias_ l) := by
  induction ips generalizing l with
  | nil => cases hip
  | cons ip' ips ih =>
    obtain ⟨hip', hips⟩ := List.nodup_cons.mp hips
    rw [List.foldl_cons]
    rcases List.mem_cons.mp hip with rfl | hip
    · have hother : ∀ p ∈ ips, decide (p.alias_ = ip.alias_) = false := by
        intro p hp
        rw [decide_eq_false_iff_not]
        exact fun heq => hip' (List.mem_map.mpr ⟨p, hp, heq⟩)
      rw [withAlias, filter_foldl_placePipeline (q := (· = ip.alias_)) hother]
      exact withAlias_placePipeline l ip
    · have hne : ip'.alias_ ≠ ip.alias_ := fun heq => hip' (List.mem_map.mpr ⟨ip, hip, heq.symm⟩)
      rw [ih hips hip]
      exact congrArg _ (filter_placePipeline (q := (· = ip.alias_)) (by simp [hne]) l)

/-! ### The list that is wanted -/

/-- The pipeline without its place in the order. -/
def StoredPipeline.content (p : StoredPipeline F) : StoredPipeline F := { p with orderId := 0 }

/-- A pipeline of the user's own. -/
def StoredPipeline.isOwn (p : StoredPipeline F) : Bool := (integrationIdForPipeline p.alias_).isNone

/-- The flag that the user has saved for an installed pipeline, else its own. -/
def savedFlag (saved : List (StoredPipeline F)) (ip : StoredPipeline F) : Bool :=
  ((withAlias ip.alias_ saved).head?.map fun p => p.enabled).getD ip.enabled

/-- **The list that is wanted.** -/
structure Effective (saved integrationPipelines result : List (StoredPipeline F)) : Prop where
  /-- Each installed pipeline is there once, as it is now, with the flag that was saved. -/
  installed : ∀ ip ∈ integrationPipelines, (withAlias ip.alias_ result).map StoredPipeline.content =
    [{ ip with enabled := savedFlag saved ip, orderId := 0 }]
  /-- The user's own pipelines are those saved, in their order. -/
  own : (result.filter StoredPipeline.isOwn).map StoredPipeline.content =
    (saved.filter StoredPipeline.isOwn).map StoredPipeline.content
  /-- There are no others. -/
  only : ∀ p ∈ result, p.isOwn ∨ ∃ ip ∈ integrationPipelines, p.alias_ = ip.alias_
  numbered : result.map (fun p => p.orderId) = (List.range result.length).map fun idx : Nat => (idx : Int) + 1

theorem map_content_mapIdx (l : List (StoredPipeline F)) :
    (l.mapIdx fun idx p => { p with orderId := idx + 1 }).map StoredPipeline.content =
      l.map StoredPipeline.content := by
  refine List.ext_getElem (by simp) fun i _ _ => ?_
  rw [List.getElem_map, List.getElem_map, List.getElem_mapIdx]
  rfl

theorem map_content_filter (q : String → Bool) (l : List (StoredPipeline F)) :
    (l.filter fun p => q p.alias_).map StoredPipeline.content =
      (l.map StoredPipeline.content).filter fun p => q p.alias_ := by
  rw [List.filter_map]
  rfl

/-- Numbering changes nothing but the order ids. -/
theorem map_content_filter_mapIdx (q : String → Bool) (l : List (StoredPipeline F)) :
    ((l.mapIdx fun idx p => { p with orderId := idx + 1 }).filter fun p => q p.alias_).map
        StoredPipeline.content =
      (l.filter fun p => q p.alias_).map StoredPipeline.content := by
  rw [map_content_filter, map_content_mapIdx, ← map_content_filter]

theorem map_orderId_mapIdx (l : List (StoredPipeline F)) :
    (l.mapIdx fun idx p => { p with orderId := idx + 1 }).map (fun p => p.orderId) =
      (List.range l.length).map fun idx : Nat => (idx : Int) + 1 := by
  refine List.ext_getElem (by simp) fun i _ _ => ?_
  rw [List.getElem_map, List.getElem_map, List.getElem_mapIdx, List.getElem_range]

variable {saved ips : List (StoredPipeline F)}

/-- The saved pipelines that are not dropped. -/
def kept (saved ips : List (StoredPipeline F)) : List (StoredPipeline F) :=
  saved.filter fun p => !Go.hasPrefix p.alias_ integrationPipelineIdPrefix ||
    (ips.map fun p => p.alias_).contains p.alias_

theorem effectivePipelines_eq : effectivePipelines saved ips =
    (ips.foldl placePipeline (kept saved ips)).mapIdx fun idx p => { p with orderId := idx + 1 } := rfl

theorem withAlias_kept {ip : StoredPipeline F} (hip : ip ∈ ips) :
    withAlias ip.alias_ (kept saved ips) = withAlias ip.alias_ saved := by
  rw [withAlias, kept, List.filter_filter]
  refine List.filter_congr fun p _ => ?_
  by_cases h : p.alias_ = ip.alias_
  · have hmem : p.alias_ ∈ ips.map fun p => p.alias_ := List.mem_map.mpr ⟨ip, hip, h.symm⟩
    rw [List.contains_iff_mem.mpr hmem, Bool.or_true, Bool.and_true]
  · simp [h]

theorem installed_iff (hips : (ips.map fun p => p.alias_).Nodup) {ip : StoredPipeline F} (hip : ip ∈ ips) :
    (withAlias ip.alias_ (effectivePipelines saved ips)).map StoredPipeline.content =
      [{ ip with enabled := savedFlag saved ip, orderId := 0 }] ↔
    (withAlias ip.alias_ saved).length ≤ 1 := by
  have hcontent : (withAlias ip.alias_ (effectivePipelines saved ips)).map StoredPipeline.content =
      (replaced ip (withAlias ip.alias_ saved)).map StoredPipeline.content := by
    refine (map_content_filter_mapIdx (· = ip.alias_) _).trans ?_
    rw [← withAlias_kept hip, ← withAlias_foldl_placePipeline hips hip]
    rfl
  rw [hcontent, savedFlag]
  match withAlias ip.alias_ saved with
  | [] => exact iff_of_true rfl (by simp)
  | [p] => exact iff_of_true rfl (by simp)
  | p :: p' :: rest => exact iff_of_false (fun h => by simpa [replaced] using congrArg List.length h) (by simp)

theorem own_iff (hips : ∀ ip ∈ ips, (integrationIdForPipeline ip.alias_).isSome) :
    ((effectivePipelines saved ips).filter StoredPipeline.isOwn).map StoredPipeline.content =
      (saved.filter StoredPipeline.isOwn).map StoredPipeline.content ↔
    ∀ p ∈ saved, Go.hasPrefix p.alias_ integrationPipelineIdPrefix →
      (integrationIdForPipeline p.alias_).isSome := by
  have hips' : ∀ ip ∈ ips, (integrationIdForPipeline ip.alias_).isNone = false := fun ip hip => by
    rw [Option.isNone_eq_false_iff]
    exact hips ip hip
  have hcontent : ((effectivePipelines saved ips).filter StoredPipeline.isOwn).map StoredPipeline.content =
      ((saved.filter StoredPipeline.isOwn).filter fun p =>
        !Go.hasPrefix p.alias_ integrationPipelineIdPrefix).map StoredPipeline.content := by
    refine (map_content_filter_mapIdx (fun a => (integrationIdForPipeline a).isNone) _).trans ?_
    rw [filter_foldl_placePipeline (q := fun a => (integrationIdForPipeline a).isNone) hips',
      List.filter_filter]
    refine congrArg _ ((List.filter_congr fun p _ => ?_).trans List.filter_filter.symm)
    -- A pipeline of the user's own has the alias of no installed one.
    by_cases hown : (integrationIdForPipeline p.alias_).isNone
    · have hother : (ips.map fun p => p.alias_).contains p.alias_ = false := by
        rw [List.contains_eq_mem, decide_eq_false_iff_not, List.mem_map]
        rintro ⟨ip, hip, heq⟩
        rw [← heq, hips' ip hip] at hown
        exact Bool.false_ne_true hown
      rw [hother, Bool.or_false, StoredPipeline.isOwn, Bool.and_comm]
    · rw [StoredPipeline.isOwn, Bool.eq_false_iff.mpr hown, Bool.false_and, Bool.and_false]
  rw [hcontent]
  constructor
  · intro h p hp hstarts
    have hlength := congrArg List.length h
    rw [List.length_map, List.length_map, List.length_filter_eq_length_iff] at hlength
    by_contra hnone
    have hown : p ∈ saved.filter StoredPipeline.isOwn :=
      List.mem_filter.mpr ⟨hp, by simpa [StoredPipeline.isOwn] using hnone⟩
    simpa [hstarts] using hlength p hown
  · intro h
    rw [List.filter_eq_self.mpr]
    intro p hp
    obtain ⟨hp, hown⟩ := List.mem_filter.mp hp
    rw [Bool.not_eq_true', Bool.eq_false_iff]
    intro hstarts
    rw [StoredPipeline.isOwn, Option.isNone_iff_eq_none] at hown
    simpa [hown] using h p hp hstarts

theorem only_effective : ∀ p ∈ effectivePipelines saved ips,
    p.isOwn ∨ ∃ ip ∈ ips, p.alias_ = ip.alias_ := by
  intro p hp
  obtain ⟨idx, hidx, rfl⟩ := List.mem_mapIdx.mp hp
  let q := (ips.foldl placePipeline (kept saved ips))[idx]
  show q.isOwn ∨ ∃ ip ∈ ips, q.alias_ = ip.alias_
  by_cases h : ∃ ip ∈ ips, q.alias_ = ip.alias_
  · exact .inr h
  · -- It was saved, so it is kept for having no prefix.
    have hother : ∀ ip ∈ ips, (decide (∀ ip' ∈ ips, ip.alias_ ≠ ip'.alias_)) = false := fun ip hip => by
      rw [decide_eq_false_iff_not]
      exact fun hne => hne ip hip rfl
    have hsaved : q ∈ (kept saved ips).filter fun p => decide (∀ ip' ∈ ips, p.alias_ ≠ ip'.alias_) := by
      rw [← filter_foldl_placePipeline (q := fun a => decide (∀ ip' ∈ ips, a ≠ ip'.alias_)) hother]
      refine List.mem_filter.mpr ⟨List.getElem_mem hidx, decide_eq_true fun ip hip heq => ?_⟩
      exact h ⟨ip, hip, heq⟩
    have hkept := (List.mem_filter.mp (List.mem_filter.mp hsaved).1).2
    have hcontains : (ips.map fun p => p.alias_).contains q.alias_ = false := by
      rw [List.contains_eq_mem, decide_eq_false_iff_not, List.mem_map]
      exact fun ⟨ip, hip, heq⟩ => h ⟨ip, hip, heq.symm⟩
    rw [hcontains, Bool.or_false, Bool.not_eq_true'] at hkept
    refine .inl ?_
    rw [StoredPipeline.isOwn, integrationIdForPipeline, hkept]
    rfl

theorem map_orderId_effective : (effectivePipelines saved ips).map (fun p => p.orderId) =
    (List.range (effectivePipelines saved ips).length).map fun idx : Nat => (idx : Int) + 1 := by
  rw [effectivePipelines_eq, map_orderId_mapIdx, List.length_mapIdx]

/-- The list is the one that is wanted if and only if every saved pipeline with the prefix of integrations is
one of an integration, and none with the alias of an installed one is saved twice. -/
theorem effective_iff {get : Int → Option (List (StoredPipeline F))} {version : Int}
    (hsaved : savedPipelines get version = some saved) (hips : (ips.map fun p => p.alias_).Nodup)
    (haliases : ∀ ip ∈ ips, ∃ integrationId pipelineName,
      ip.alias_ = aliasForIntegrationPipeline integrationId pipelineName) :
    (∃ result, getEffectivePipelinesByVersion get (.ok ips) version = .ok result ∧
      Effective saved ips result) ↔
    (∀ p ∈ saved, Go.hasPrefix p.alias_ integrationPipelineIdPrefix →
      (integrationIdForPipeline p.alias_).isSome) ∧
    ∀ ip ∈ ips, (withAlias ip.alias_ saved).length ≤ 1 := by
  have hids : ∀ ip ∈ ips, (integrationIdForPipeline ip.alias_).isSome := by
    intro ip hip
    obtain ⟨integrationId, pipelineName, heq⟩ := haliases ip hip
    rw [heq]
    exact integrationId_alias _ _
  rw [getEffectivePipelinesByVersion, hsaved]
  constructor
  · rintro ⟨result, hresult, h⟩
    obtain rfl := Except.ok.inj hresult
    exact ⟨(own_iff hids).mp h.own, fun ip hip => (installed_iff hips hip).mp (h.installed ip hip)⟩
  · rintro ⟨hown, honce⟩
    exact ⟨_, rfl, fun ip hip => (installed_iff hips hip).mpr (honce ip hip), (own_iff hids).mpr hown,
      only_effective, map_orderId_effective⟩

/-- A pipeline without operators. -/
def pipelineNamed (alias_ : String) (enabled : Bool) : StoredPipeline Unit where
  alias_ := alias_
  enabled := enabled
  filter := none
  config := []
  id := ""
  orderId := 0
  name := alias_
  description := none
  createdBy := ""
  createdAt := 0

theorem effective_iff_disabled :
    let ip := pipelineNamed (aliasForIntegrationPipeline "nginx" "parse") true
    let saved := [pipelineNamed ip.alias_ false, pipelineNamed "parser" true]
    ∃ result, getEffectivePipelinesByVersion (fun _ => some saved) (.ok [ip]) 1 = .ok result ∧
      Effective saved [ip] result := by
  refine (effective_iff rfl ?_ fun ip hip => ?_).mpr ⟨?_, ?_⟩
  · exact List.nodup_singleton _
  · rw [List.mem_singleton.mp hip]
    exact ⟨"nginx", "parse", rfl⟩
  · decide
  · decide

/-- A pipeline of the user's own is dropped for the word that its alias begins with. -/
theorem not_effective_integrationTests :
    let saved := [pipelineNamed "integration-tests" true]
    ¬∃ result, getEffectivePipelinesByVersion (fun _ => some saved) (.ok []) 1 = .ok result ∧
      Effective saved [] result := by
  rintro saved ⟨result, hresult, h⟩
  obtain rfl := Except.ok.inj hresult
  have hlength := congrArg List.length h.own
  exact absurd hlength (by decide)

end Effective

end QueryService.LogParsingPipeline
