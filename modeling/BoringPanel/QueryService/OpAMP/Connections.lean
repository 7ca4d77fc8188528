import BoringPanel.QueryService.OpAMP.Agents

/-!
# Agents and their connections

The two maps always agree (`Linked`), so that a connection that closes never meets a missing agent. They
show where the agents listen as long as an agent keeps its connection until that is closed: a message
on another connection leaves `conn` as it is (`consistent_iff_stays`), and the agent is forgotten when
the old connection is reported closed.
-/

namespace QueryService.OpAMP

variable {Conn : Type} [DecidableEq Conn] {agents agents' : Agents Conn} {e : Event Conn}
  {events : List (Event Conn)}

/-! ### What the operations do -/

omit [DecidableEq Conn] in
/-- The agents of a connection are removed, in any order. -/
theorem Agents.removeAgents_eq {order : List String} {m : Go.Map (Agent Conn)}
    (hnd : order.Nodup) (h : ∀ id ∈ order, (m.lookup id).isSome) :
    ∃ m', Agents.removeAgents order m = some m' ∧
      ∀ id, m'.lookup id = if id ∈ order then none else m.lookup id := by
  induction order generalizing m with
  | nil => exact ⟨m, rfl, fun id => by simp⟩
  | cons i order ih =>
    obtain ⟨hi, hnd'⟩ := List.nodup_cons.mp hnd
    obtain ⟨agent, hagent⟩ := Option.isSome_iff_exists.mp (h i List.mem_cons_self)
    have hrest : ∀ id ∈ order, ((m.erase i).lookup id).isSome := by
      intro id hid
      rw [Go.Map.lookup_erase, if_neg (by rintro rfl; exact hi hid)]
      exact h id (List.mem_cons_of_mem i hid)
    obtain ⟨m', hm', hlookup⟩ := ih hnd' hrest
    refine ⟨m', ?_, fun id => ?_⟩
    · rw [Agents.removeAgents, hagent]
      exact hm'
    · rw [hlookup id, Go.Map.lookup_erase]
      by_cases hid : id = i
      · simp [hid]
      · simp [hid]

/-- What a message changes: the agent is there afterwards, with the connection that it had. -/
theorem Agents.onMessage_cases {id : String} {conn : Conn} {upsert : Bool}
    {reported : Option String} (h : agents.onMessage id conn upsert reported = some agents') :
    (∃ agent agent', agents.agentsById.lookup id = some agent ∧ agent'.conn = agent.conn ∧
      agents'.agentsById = agents.agentsById.set id agent' ∧
      agents'.connections = agents.connections) ∨
    (∃ agent', agents.agentsById.lookup id = none ∧ agent'.conn = conn ∧
      (∀ j, agents'.agentsById.lookup j = if j = id then some agent' else
        agents.agentsById.lookup j) ∧
      agents'.connections = Function.update agents.connections conn
        (if id ∈ agents.connections conn then agents.connections conn
          else agents.connections conn ++ [id])) := by
  have hconn (agent : Agent Conn) : (agent.updateEffectiveConfig reported).conn = agent.conn := by
    cases reported <;> rfl
  unfold Agents.onMessage Agents.findOrCreateAgent at h
  cases hid : agents.agentsById.lookup id with
  | some agent =>
    rw [hid] at h
    obtain rfl := Option.some.inj h
    exact .inl ⟨agent, _, rfl, hconn agent, rfl, rfl⟩
  | none =>
    rw [hid] at h
    cases upsert with
    | false => cases h
    | true =>
      obtain rfl := Option.some.inj h
      refine .inr ⟨(Agent.new id conn).updateEffectiveConfig reported, rfl, hconn _, fun j => ?_, rfl⟩
      rw [Go.Map.lookup_set, Go.Map.lookup_set]
      by_cases hj : j = id
      · rw [if_pos hj, if_pos hj]
      · rw [if_neg hj, if_neg hj, if_neg hj]

/-- What a connection that closes changes. -/
theorem Agents.removeConnection_cases {order : List String} (conn : Conn)
    (hnd : order.Nodup) (hids : ∀ id ∈ order, (agents.agentsById.lookup id).isSome) :
    ∃ agents', agents.removeConnection order conn = some agents' ∧
      (∀ id, agents'.agentsById.lookup id =
        if id ∈ order then none else agents.agentsById.lookup id) ∧
      agents'.connections = Function.update agents.connections conn [] := by
  obtain ⟨m', hm', hlookup⟩ := Agents.removeAgents_eq hnd hids
  exact ⟨_, by rw [Agents.removeConnection, hm']; rfl, hlookup, rfl⟩

/-! ### The maps agree -/

/-- Each id stands under the connection of its agent, once. -/
structure Linked (agents : Agents Conn) : Prop where
  agree : ∀ id conn, id ∈ agents.connections conn ↔
    ∃ agent, agents.agentsById.lookup id = some agent ∧ agent.conn = conn
  nodup : ∀ conn, (agents.connections conn).Nodup

omit [DecidableEq Conn] in
theorem linked_empty : Linked (Agents.empty : Agents Conn) where
  agree id conn := by
    constructor
    · exact fun h => absurd h List.not_mem_nil
    · rintro ⟨agent, h, -⟩
      exact absurd (Go.Map.mem_of_lookup h) List.not_mem_nil
  nodup conn := List.nodup_nil

namespace Linked

omit [DecidableEq Conn] in
/-- The ids of a connection, in any order, are those of agents that are there. -/
theorem order_ok (h : Linked agents) {conn : Conn} {order : List String}
    (horder : order.Perm (agents.connections conn)) :
    order.Nodup ∧ ∀ id ∈ order, (agents.agentsById.lookup id).isSome := by
  refine ⟨horder.nodup_iff.mpr (h.nodup conn), fun id hid => ?_⟩
  obtain ⟨agent, hagent, -⟩ := (h.agree id conn).mp (horder.mem_iff.mp hid)
  rw [hagent]
  rfl

/-- **No missing agent is dereferenced.** -/
theorem remove (h : Linked agents) {conn : Conn} {order : List String}
    (horder : order.Perm (agents.connections conn)) :
    (agents.removeConnection order conn).isSome := by
  obtain ⟨hnd, hids⟩ := h.order_ok horder
  obtain ⟨agents', hagents', -⟩ := Agents.removeConnection_cases conn hnd hids
  rw [hagents']
  rfl

/-- After a connection has closed, exactly its agents are gone. -/
theorem lookup_close (h : Linked agents) {conn : Conn} {order : List String}
    (horder : order.Perm (agents.connections conn))
    (hremove : agents.removeConnection order conn = some agents') :
    (∀ id, agents'.agentsById.lookup id =
      if id ∈ agents.connections conn then none else agents.agentsById.lookup id) ∧
    agents'.connections = Function.update agents.connections conn [] := by
  obtain ⟨hnd, hids⟩ := h.order_ok horder
  obtain ⟨agents'', hagents'', hlookup, hconns⟩ :=
    Agents.removeConnection_cases conn hnd hids
  obtain rfl := Option.some.inj (hremove.symm.trans hagents'')
  refine ⟨fun id => ?_, hconns⟩
  rw [hlookup id]
  simp only [horder.mem_iff]

/-- Every event keeps the maps in agreement. -/
theorem step (h : Linked agents) (hstep : Step agents e agents') : Linked agents' := by
  cases hstep with
  | @message _ id conn upsert reported hmsg =>
    rcases Agents.onMessage_cases hmsg with ⟨agent, agent', hagent, hconn, hset, hconns⟩ |
      ⟨agent', hnone, hconn, hlookup, hconns⟩
    · -- a known agent keeps its connection
      refine ⟨fun j c => ?_, fun c => by rw [hconns]; exact h.nodup c⟩
      rw [hconns, hset, h.agree j c, Go.Map.lookup_set]
      by_cases hj : j = id
      · subst hj
        simp only [hagent, if_true, Option.some.injEq, exists_eq_left', hconn]
      · rw [if_neg hj]
    · have hid (c : Conn) : id ∉ agents.connections c := by
        intro hmem
        obtain ⟨agent, hagent, -⟩ := (h.agree id c).mp hmem
        rw [hnone] at hagent
        cases hagent
      rw [if_neg (hid conn)] at hconns
      refine ⟨fun j c => ?_, fun c => ?_⟩
      · rw [hconns, hlookup j]
        by_cases hj : j = id
        · subst hj
          simp only [if_true, Option.some.injEq, exists_eq_left', hconn]
          by_cases hc : c = conn
          · subst hc
            simp
          · rw [Function.update_of_ne hc]
            exact iff_of_false (hid c) (Ne.symm hc)
        · rw [if_neg hj, ← h.agree j c]
          by_cases hc : c = conn
          · subst hc
            simp [hj]
          · rw [Function.update_of_ne hc]
      · rw [hconns]
        by_cases hc : c = conn
        · subst hc
          rw [Function.update_self]
          exact List.nodup_append.mpr ⟨h.nodup c, List.nodup_singleton id, by
            rintro a ha b hb rfl
            exact hid c (List.mem_singleton.mp hb ▸ ha)⟩
        · rw [Function.update_of_ne hc]
          exact h.nodup c
  | @close _ conn order horder hremove =>
    obtain ⟨hlookup, hconns⟩ := h.lookup_close horder hremove
    refine ⟨fun j c => ?_, fun c => ?_⟩
    · rw [hconns, hlookup j]
      by_cases hc : c = conn
      · subst hc
        rw [Function.update_self]
        refine iff_of_false List.not_mem_nil ?_
        rintro ⟨agent, hagent, hac⟩
        split at hagent
        · cases hagent
        · rename_i hj
          exact hj ((h.agree j c).mpr ⟨agent, hagent, hac⟩)
      · rw [Function.update_of_ne hc, h.agree j c]
        split
        · rename_i hj
          obtain ⟨agent', hagent', hac'⟩ := (h.agree j conn).mp hj
          refine iff_of_false ?_ (by simp)
          rintro ⟨agent, hagent, hac⟩
          obtain rfl := Option.some.inj (hagent.symm.trans hagent')
          exact hc (hac.symm.trans hac')
        · exact Iff.rfl
    · rw [hconns]
      by_cases hc : c = conn
      · subst hc
        rw [Function.update_self]
        exact List.nodup_nil
      · rw [Function.update_of_ne hc]
        exact h.nodup c

end Linked

/-- **The maps agree in every state reached**, whatever the events are. -/
theorem linked_of_run (h : Run Step Agents.empty events agents) : Linked agents :=
  h.invariant linked_empty fun _ _ _ hinv hstep => hinv.step hstep

/-! ### Where the agents listen -/

theorem liveConn_snoc (events : List (Event Conn)) (e : Event Conn) (id : String) :
    liveConn (events ++ [e]) id = e.listening id (liveConn events id) := by
  rw [liveConn, List.foldl_append]
  rfl

/-- After an event the maps show where the agents listen exactly if the event stays. -/
theorem listening_iff_stays (hlinked : Linked agents)
    (hlive : ∀ id, (agents.agentsById.lookup id).map Agent.conn = liveConn events id)
    (hstep : Step agents e agents') :
    (∀ id, (agents'.agentsById.lookup id).map Agent.conn = liveConn (events ++ [e]) id) ↔
      Stays agents e := by
  cases hstep with
  | @message _ id conn upsert reported hmsg =>
    rcases Agents.onMessage_cases hmsg with ⟨agent, agent', hagent, hconn, hset, -⟩ |
      ⟨agent', hnone, hconn, hlookup, -⟩
    · constructor
      · intro h a ha
        have hid := h id
        rw [hset, Go.Map.lookup_set, if_pos rfl, liveConn_snoc, Event.listening, if_pos rfl] at hid
        obtain rfl := Option.some.inj (ha.symm.trans hagent)
        rw [← hconn]
        exact Option.some.inj hid
      · intro h j
        rw [hset, Go.Map.lookup_set, liveConn_snoc, Event.listening, ← hlive j]
        by_cases hj : j = id
        · rw [if_pos hj, if_pos hj.symm, Option.map_some, hconn, h agent hagent]
        · rw [if_neg hj, if_neg (Ne.symm hj)]
    · constructor
      · intro _ a ha
        rw [hnone] at ha
        cases ha
      · intro _ j
        rw [hlookup j, liveConn_snoc, Event.listening, ← hlive j]
        by_cases hj : j = id
        · rw [if_pos hj, if_pos hj.symm, Option.map_some, hconn]
        · rw [if_neg hj, if_neg (Ne.symm hj)]
  | @close _ conn order horder hremove =>
    obtain ⟨hlookup, -⟩ := hlinked.lookup_close horder hremove
    refine iff_of_true (fun j => ?_) trivial
    have hmem : j ∈ agents.connections conn ↔ liveConn events j = some conn := by
      rw [hlinked.agree j conn, ← hlive j, Option.map_eq_some_iff]
    rw [hlookup j, liveConn_snoc, Event.listening]
    by_cases hj : j ∈ agents.connections conn
    · rw [if_pos hj, if_pos (hmem.mp hj)]
      rfl
    · rw [if_neg hj, if_neg (fun h => hj (hmem.mpr h)), hlive j]

theorem Linked.consistent (h : Linked agents)
    (hlive : ∀ id, (agents.agentsById.lookup id).map Agent.conn = liveConn events id) :
    Consistent events agents where
  listening := hlive
  agree := h.agree
  remove _ _ horder := h.remove horder

/-- A run of events that stay keeps the maps consistent. -/
theorem consistent_of_run (h : Run (Guarded Step Stays) Agents.empty events agents) :
    Consistent events agents := by
  have hlinked {as : List (Event Conn)} {t : Agents Conn}
      (hrun : Run (Guarded Step Stays) Agents.empty as t) : Linked t :=
    linked_of_run hrun.of_guarded
  induction h with
  | nil =>
    refine linked_empty.consistent fun id => ?_
    rfl
  | snoc hrun hstep ih =>
    refine (hlinked (hrun.snoc hstep)).consistent ?_
    exact (listening_iff_stays (hlinked hrun) ih.listening hstep.1).mpr hstep.2

/-- **In a run whose events stay the maps are consistent in every state, and the next event leaves
them consistent exactly if it stays too.** -/
theorem consistent_iff_stays (h : Run (Guarded Step Stays) Agents.empty events agents) :
    Consistent events agents ∧ ∀ e agents', Step agents e agents' →
      (Consistent (events ++ [e]) agents' ↔ Stays agents e) := by
  have hcons := consistent_of_run h
  have hlinked := linked_of_run h.of_guarded
  refine ⟨hcons, fun e agents' hstep => ?_⟩
  have hiff := listening_iff_stays hlinked hcons.listening hstep
  constructor
  · exact fun hc => hiff.mp hc.listening
  · exact fun hs => (hlinked.step hstep).consistent (hiff.mpr hs)

/-- An agent that reconnects after its connection has closed. -/
theorem consistent_iff_stays_reconnected :
    ∃ agents : Agents Nat, Consistent [.message "a" 0 true none, .close 0] agents ∧
      ∀ e agents', Step agents e agents' →
        (Consistent [.message "a" 0 true none, .close 0, e] agents' ↔ Stays agents e) :=
  ⟨_, consistent_iff_stays
    ((Run.nil.snoc ⟨.message rfl, fun _ h => nomatch h⟩).snoc
      ⟨.close (List.Perm.refl ["a"]) rfl, trivial⟩)⟩

/-- An agent that reconnects before its old connection is reported closed is forgotten, although its
new connection is open. -/
theorem consistent_reconnect_fails :
    ∃ agents : Agents Nat,
      Run Step Agents.empty [.message "a" 0 true none, .message "a" 1 true none, .close 0] agents ∧
      ¬ Consistent [.message "a" 0 true none, .message "a" 1 true none, .close 0] agents := by
  refine ⟨_, ((Run.nil.snoc (.message rfl)).snoc (.message rfl)).snoc
    (.close (List.Perm.refl ["a"]) rfl), fun h => ?_⟩
  have hlisten := h.listening "a"
  revert hlisten
  decide

end QueryService.OpAMP
