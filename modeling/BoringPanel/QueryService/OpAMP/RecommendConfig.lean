import BoringPanel.QueryService.OpAMP.Agents

/-!
# Rolling out the latest configuration

`RecommendLatestConfigToAll` of `app/opamp/model/agents.go`: the loop over the agents in the order of
the `range` over `agentsById`. It returns at the first agent that is up to date
(`recommendLatestConfigToAll_upToDate`), so that it reaches all agents in every order exactly if none
is up to date or all are (`rollsOut_iff`).
-/

namespace QueryService.OpAMP

variable {Conn : Type}

/-- `RecommendAgentConfig` of an `AgentConfigProvider`: the configuration and its id for an effective
configuration, or an error. -/
abbrev AgentConfigProvider := String → Except String (String × String)

/-- What is done to an agent. -/
inductive Effect where
  /-- `agent.remoteConfig = newRemoteConfig` -/
  | store (agentID : String) (remoteConfig : AgentRemoteConfig)
  /-- `agent.SendToAgent`, on `agent.conn` -/
  | send (agentID : String) (remoteConfig : AgentRemoteConfig)
  /-- `ListenToConfigUpdate` -/
  | listen (agentID confId : String)
deriving DecidableEq, Repr

/-- `CollectorConfigFilename`. -/
def collectorConfigFilename : String := "collector.yaml"

def newRemoteConfig (newConfig confId : String) : AgentRemoteConfig where
  configMap := [(collectorConfigFilename,
    { body := newConfig, contentType := "application/x-yaml" })]
  configHash := confId

/-- `RecommendLatestConfigToAll`, for the agents in the order of the `range`: what is done, and the
error that is returned. -/
def recommendLatestConfigToAll (provider : AgentConfigProvider) :
    List (Agent Conn) → List Effect × Except String Unit
  | [] => ([], .ok ())
  | agent :: agents =>
    match provider agent.effectiveConfig with
    | .error err =>
      ([], .error ("could not generate conf recommendation for " ++ agent.id ++ ": " ++ err))
    | .ok (newConfig, confId) =>
      -- the function returns here, and does not go on with the next agent
      if newConfig = agent.effectiveConfig then ([], .ok ())
      else
        let remoteConfig := newRemoteConfig newConfig confId
        let rest := recommendLatestConfigToAll provider agents
        ([.store agent.id remoteConfig, .send agent.id remoteConfig, .listen agent.id confId] ++
          rest.1, rest.2)

/-! ### One agent -/

variable (provider : AgentConfigProvider) (agent : Agent Conn)

/-- The effective configuration is the one that is recommended. -/
def UpToDate : Prop := ∃ confId, provider agent.effectiveConfig = .ok (agent.effectiveConfig, confId)

/-- **The agent has the recommended configuration, or it was stored and sent to it.** -/
def RolledOut (effects : List Effect) : Prop :=
  ∃ newConfig confId, provider agent.effectiveConfig = .ok (newConfig, confId) ∧
    (agent.effectiveConfig = newConfig ∨
      (.store agent.id (newRemoteConfig newConfig confId) ∈ effects ∧
        .send agent.id (newRemoteConfig newConfig confId) ∈ effects))

variable {provider agent} {effects : List Effect}

theorem UpToDate.rolledOut (h : UpToDate provider agent) : RolledOut provider agent effects := by
  obtain ⟨confId, hconf⟩ := h
  exact ⟨_, confId, hconf, .inl rfl⟩

theorem RolledOut.mono {effects' : List Effect} (h : RolledOut provider agent effects)
    (hsub : effects ⊆ effects') : RolledOut provider agent effects' := by
  obtain ⟨newConfig, confId, hconf, hdone⟩ := h
  exact ⟨newConfig, confId, hconf, hdone.imp_right fun hdone => ⟨hsub hdone.1, hsub hdone.2⟩⟩

/-- Without any effect only an agent that is up to date has the configuration. -/
theorem rolledOut_nil_iff : RolledOut provider agent [] ↔ UpToDate provider agent := by
  constructor
  · rintro ⟨newConfig, confId, hconf, rfl | hdone⟩
    · exact ⟨confId, hconf⟩
    · exact absurd hdone.1 List.not_mem_nil
  · exact UpToDate.rolledOut

/-! ### The loop -/

/-- An agent that is up to date ends the loop. -/
theorem recommendLatestConfigToAll_upToDate (h : UpToDate provider agent)
    (agents : List (Agent Conn)) :
    recommendLatestConfigToAll provider (agent :: agents) = ([], .ok ()) := by
  obtain ⟨confId, hconf⟩ := h
  rw [recommendLatestConfigToAll, hconf]
  exact if_pos rfl

/-- Any other agent gets its configuration, and the loop goes on; or the call returns an error. -/
theorem recommendLatestConfigToAll_cons (h : ¬ UpToDate provider agent) (agents : List (Agent Conn))
    (hok : (recommendLatestConfigToAll provider (agent :: agents)).2 = .ok ()) :
    RolledOut provider agent (recommendLatestConfigToAll provider (agent :: agents)).1 ∧
      (recommendLatestConfigToAll provider agents).2 = .ok () ∧
      (recommendLatestConfigToAll provider agents).1 ⊆
        (recommendLatestConfigToAll provider (agent :: agents)).1 := by
  cases hconf : provider agent.effectiveConfig with
  | error err =>
    rw [recommendLatestConfigToAll, hconf] at hok
    cases hok
  | ok conf =>
    obtain ⟨newConfig, confId⟩ := conf
    have hne : newConfig ≠ agent.effectiveConfig := by
      rintro rfl
      exact h ⟨confId, hconf⟩
    have hloop : recommendLatestConfigToAll provider (agent :: agents) =
        ([.store agent.id (newRemoteConfig newConfig confId),
          .send agent.id (newRemoteConfig newConfig confId), .listen agent.id confId] ++
          (recommendLatestConfigToAll provider agents).1,
          (recommendLatestConfigToAll provider agents).2) := by
      rw [recommendLatestConfigToAll, hconf]
      exact if_neg hne
    rw [hloop] at hok ⊢
    exact ⟨⟨newConfig, confId, hconf, .inr (by simp)⟩, hok, List.subset_append_right _ _⟩

/-- If no agent is up to date, all of them get their configuration. -/
theorem rolledOut_of_none_upToDate {agents : List (Agent Conn)}
    (h : ∀ agent ∈ agents, ¬ UpToDate provider agent)
    (hok : (recommendLatestConfigToAll provider agents).2 = .ok ()) :
    ∀ agent ∈ agents, RolledOut provider agent (recommendLatestConfigToAll provider agents).1 := by
  induction agents with
  | nil => exact fun agent hagent => absurd hagent List.not_mem_nil
  | cons a agents ih =>
    obtain ⟨ha, hrest, hsub⟩ :=
      recommendLatestConfigToAll_cons (h a List.mem_cons_self) agents hok
    intro agent hagent
    rcases List.mem_cons.mp hagent with rfl | hagent
    · exact ha
    · exact (ih (fun b hb => h b (List.mem_cons_of_mem a hb)) hrest agent hagent).mono hsub

/-! ### Every order -/

variable (provider) in
/-- **Whenever the call returns no error, in whatever order the agents come, each of them has the
recommended configuration or was sent it.** -/
def RollsOut (agentsById : Go.Map (Agent Conn)) : Prop :=
  ∀ agents : List (Agent Conn), agents.Perm (agentsById.entries.map Prod.snd) →
    (recommendLatestConfigToAll provider agents).2 = .ok () →
    ∀ agent ∈ agents, RolledOut provider agent (recommendLatestConfigToAll provider agents).1

/-- **The configuration is rolled out exactly if no agent is up to date, or all are.** -/
theorem rollsOut_iff (provider : AgentConfigProvider) (agentsById : Go.Map (Agent Conn)) :
    RollsOut provider agentsById ↔
      ((∃ e ∈ agentsById.entries, UpToDate provider e.2) →
        ∀ e ∈ agentsById.entries, UpToDate provider e.2) := by
  constructor
  · rintro h ⟨e, he, hup⟩ e' he'
    -- the order that begins with the agent that is up to date
    obtain ⟨a, b, hab⟩ := List.append_of_mem (List.mem_map_of_mem (f := Prod.snd) he)
    have hperm : (e.2 :: (a ++ b)).Perm (agentsById.entries.map Prod.snd) := by
      rw [hab]
      exact List.perm_middle.symm
    have hloop := recommendLatestConfigToAll_upToDate hup (a ++ b)
    have hrolled := h _ hperm (by rw [hloop]) e'.2
      (hperm.mem_iff.mpr (List.mem_map_of_mem he'))
    rw [hloop] at hrolled
    exact rolledOut_nil_iff.mp hrolled
  · intro h agents hperm hok agent hagent
    have hentries (b : Agent Conn) (hb : b ∈ agents) : ∃ e ∈ agentsById.entries, e.2 = b :=
      List.mem_map.mp (hperm.mem_iff.mp hb)
    by_cases hup : ∃ e ∈ agentsById.entries, UpToDate provider e.2
    · obtain ⟨e, he, rfl⟩ := hentries agent hagent
      exact (h hup e he).rolledOut
    · refine rolledOut_of_none_upToDate (fun b hb hbup => hup ?_) hok agent hagent
      obtain ⟨e, he, rfl⟩ := hentries b hb
      exact ⟨e, he, hbup⟩

/-- Agents "a", whose configuration is the recommended one, and "b", with another one: if "a" comes
first, "b" is not sent anything. -/
theorem recommendLatestConfigToAll_skips :
    ¬ RollsOut (fun _ => .ok ("new", "1"))
      ⟨[("a", { Agent.new "a" () with effectiveConfig := "new" }),
        ("b", { Agent.new "b" () with effectiveConfig := "old" })], by decide⟩ := by
  intro h
  have hb := h _ (List.Perm.refl _) rfl _ (List.mem_cons_of_mem _ (List.mem_singleton_self _))
  obtain ⟨confId, hconf⟩ := rolledOut_nil_iff.mp hb
  exact absurd (Prod.mk.inj (Except.ok.inj hconf)).1 (by decide)

end QueryService.OpAMP
