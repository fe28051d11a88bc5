import Consensus.Proofs.Turn.Calls

/-! # Lives of a server

A server lives through incidents: calls with any frames whatever, writes to its store that
begin or cease to fail, and new starts from what is stored. Nothing is known of the others.
-/

namespace Consensus

/-- What can happen to a server. -/
inductive Incident where
  | call (now : Duration) (call : Call)
  /-- Writes to the store begin to fail, or cease to. -/
  | fault (faulty : Bool)
  /-- The server starts again from its store. -/
  | restart (draws : Draws) (now : Duration)

namespace Incident

def isRestart : Incident → Bool
  | .restart _ _ => true
  | _ => false

/-- The message arrived on the channel of `sender`. -/
def Brings (incident : Incident) (sender : ServerId) (message : Message) : Prop :=
  ∃ now frame, incident = .call now (.receive sender frame) ∧
    Message.decode frame = .ok message

/-- What an incident gives to the server. -/
def intake (incident : Incident) : View.Intake where
  received := incident.Brings
  submitted log bytes := ∃ now call, incident = .call now call ∧ call.intake.submitted log bytes
  restarted := incident.isRestart = true

end Incident

namespace Server

variable {σ : Type} [Store σ] [LawfulStore σ] [FallibleStore σ]

/-- What an incident makes of the server. A start that fails leaves it as it was. -/
def meet (server : Server σ) : Incident → Outcome σ Bool
  | .call now call => server.call now call
  | .fault faulty => .idle (server.mapStore (FallibleStore.setFault · faulty)) false
  | .restart draws now =>
    match start server.config server.log.store draws now with
    | .error failure => ⟨server, [], .error failure⟩
    | .ok started => .idle started false

/-- The server as incidents, one after the other, leave it. -/
def after (server : Server σ) (incidents : List Incident) : Server σ :=
  incidents.foldl (fun present incident => (present.meet incident).server) server

/-- The server as it was at first, at each posting and after each incident. -/
def moments (server : Server σ) : List Incident → List (Server σ)
  | [] => [server]
  | incident :: rest =>
    server :: (server.meet incident).postings.map Posting.sender ++
      (server.meet incident).server.moments rest

/-- What was posted, each with the incident in which it was. -/
def posted (server : Server σ) :
    List Incident → List (Incident × Posting σ)
  | [] => []
  | incident :: rest =>
    (server.meet incident).postings.map (incident, ·) ++ (server.meet incident).server.posted rest

variable {server : Server σ} {incidents : List Incident}

/-- A life begins with the server itself. -/
theorem moments_eq_cons (server : Server σ) (incidents : List Incident) :
    ∃ later, server.moments incidents = server :: later := by
  cases incidents with
  | nil => exact ⟨[], rfl⟩
  | cons => exact ⟨_, rfl⟩

/-- The server that the first incidents leave is a moment of the whole life. -/
theorem after_mem_moments (server : Server σ) (front rest : List Incident) :
    server.after front ∈ server.moments (front ++ rest) := by
  induction front generalizing server with
  | nil =>
    obtain ⟨later, hmoments⟩ := server.moments_eq_cons rest
    exact hmoments ▸ List.mem_cons_self
  | cons incident front ih => exact List.mem_append_right _ (ih (server.meet incident).server)

/-- Whoever posts in a life does so at a moment of it. -/
theorem sender_mem_moments {incident : Incident} {posting : Posting σ}
    (hposted : (incident, posting) ∈ server.posted incidents) :
    posting.sender ∈ server.moments incidents := by
  induction incidents generalizing server with
  | nil => cases hposted
  | cons _ rest ih =>
    rcases List.mem_append.mp hposted with hnow | hlater
    · obtain ⟨_, hposting, heq⟩ := List.mem_map.mp hnow
      obtain ⟨rfl, rfl⟩ := Prod.mk.inj heq
      exact List.mem_append_left _ (List.mem_cons_of_mem _ (List.mem_map_of_mem hposting))
    · exact List.mem_append_right _ (ih hlater)

/-! ## Incidents trace the protocol -/

section Disturbances

omit [FallibleStore σ]

variable {change : σ → σ}

/-- A server is as coherent over a store that holds the same. -/
theorem Coherent.mapStore (h : server.Coherent)
    (hvalid : LawfulStore.Valid (change server.log.store))
    (hentries : Store.entries (change server.log.store) = server.log.entries)
    (hload : Store.load (change server.log.store) = Store.load server.log.store) :
    (server.mapStore change).Coherent := by
  refine ⟨⟨⟨hvalid, ?_⟩, fun loaded hloaded => ?_⟩, h.commit_ge, h.cursors_eq⟩
  · exact h.durable.log.lastTerm_eq.trans (congrArg Entries.lastTerm hentries.symm)
  · exact h.durable.loaded_eq loaded (hload.symm.trans hloaded)

omit [LawfulStore σ] in
/-- A store that holds the same entries gives the same view. -/
theorem view_mapStore
    (hentries : Store.entries (change server.log.store) = server.log.entries) :
    (server.mapStore change).view = server.view :=
  congrArg (fun log => { server.view with log }) hentries

end Disturbances

/-- An incident traces the protocol on what it gives to the server. Of what it brings, only
the messages of peers count. -/
theorem meet_traces_on {intake : View.Intake} (hcoherent : server.Coherent) (incident : Incident)
    (hreceived : ∀ sender message, server.config.isPeer sender = true →
      incident.Brings sender message → intake.received sender message)
    (hsubmitted : ∀ log bytes, incident.intake.submitted log bytes → intake.submitted log bytes)
    (hrestarted : incident.isRestart = true → intake.restarted) :
    (server.meet incident).Traces intake server := by
  have hbegun : Turn.Trace intake ⟨server, .zero, []⟩ ⟨server, .zero, []⟩ := .start hcoherent
  cases incident with
  | call now call =>
    apply call_traces hcoherent
    · rintro sender message hpeer ⟨frame, rfl, hdecode⟩
      exact hreceived sender message hpeer ⟨now, frame, rfl, hdecode⟩
    · exact fun bytes hgiven => hsubmitted _ _ ⟨now, call, rfl, hgiven⟩
  | fault faulty =>
    have hfaulted : (server.mapStore (FallibleStore.setFault · faulty)).Coherent :=
      hcoherent.mapStore (FallibleStore.valid faulty hcoherent.durable.log.valid)
        (FallibleStore.entries_eq _ faulty) (FallibleStore.load_eq _ faulty)
    have htrace : Turn.Trace intake ⟨server, .zero, []⟩
        ⟨server.mapStore (FallibleStore.setFault · faulty), .zero, []⟩ :=
      hbegun.still (view_mapStore (FallibleStore.entries_eq _ faulty)) hfaulted
    exact ⟨_, _, htrace, rfl, rfl⟩
  | restart draws now =>
    unfold meet
    dsimp only
    split
    next => exact ⟨_, _, hbegun, rfl, rfl⟩
    next started hstart =>
      obtain ⟨_, hstarted, hload, hview⟩ := start_eq_ok hcoherent.durable.log.valid hstart
      -- What is loaded is what the server had at hand.
      obtain ⟨hterm, hvote⟩ := Prod.mk.inj (hcoherent.durable.loaded_eq _ hload)
      have hmove : server.view.Move intake started.view := by
        rw [hview, hterm, hvote]
        exact .restart (hrestarted rfl)
      exact ⟨_, _, hbegun.move hmove hstarted, rfl, rfl⟩

/-- An incident traces the protocol on what it gives to the server. -/
theorem meet_traces (hcoherent : server.Coherent) (incident : Incident) :
    (server.meet incident).Traces incident.intake server :=
  meet_traces_on hcoherent incident (fun _ _ _ hbrings => hbrings) (fun _ _ hgiven => hgiven)
    fun hrestart => hrestart

/-- What a life keeps of a server is what each incident keeps. -/
theorem moments_induction {property : Server σ → Prop}
    (hstep : ∀ (present : Server σ), property present → ∀ incident ∈ incidents,
      ∀ moment ∈ (present.meet incident).moments, property moment)
    (hstart : property server) : ∀ moment ∈ server.moments incidents, property moment := by
  induction incidents generalizing server with
  | nil => simpa [moments] using hstart
  | cons incident rest ih =>
    have hmet := hstep server hstart incident List.mem_cons_self
    intro moment hmoment
    rcases List.mem_append.mp hmoment with hnow | hlater
    · rcases List.mem_cons.mp hnow with rfl | hposted
      · exact hstart
      · exact hmet moment (List.mem_append_left _ hposted)
    · refine ih (fun present hpresent other hother => ?_)
        (hmet _ (Outcome.server_mem_moments _)) moment hlater
      exact hstep present hpresent other (List.mem_cons_of_mem _ hother)

/-- At each moment of a life the server is coherent and has its own id. -/
theorem coherent_of_mem_moments (hcoherent : server.Coherent) :
    ∀ moment ∈ server.moments incidents, moment.Coherent ∧ moment.id = server.id := by
  refine moments_induction (fun present hpresent incident _ moment hmoment => ?_) ⟨hcoherent, rfl⟩
  have htraces := meet_traces hpresent.1 incident
  exact ⟨htraces.coherent moment hmoment, (htraces.moves hmoment).id_eq.trans hpresent.2⟩

/-- What moves keep from one view to the next holds from each moment of a life to each
later one. -/
theorem pairwise_moments {related : View → View → Prop}
    (htrans : ∀ ⦃first second third⦄, related first second → related second third →
      related first third)
    (hmoves : ∀ incident ∈ incidents, ∀ ⦃earlier later : View⦄,
      earlier.Moves incident.intake later → related earlier later)
    (hcoherent : server.Coherent) :
    (server.moments incidents).Pairwise
      fun earlier later => related earlier.view later.view := by
  induction incidents generalizing server with
  | nil => exact List.pairwise_singleton _ _
  | cons incident rest ih =>
    have hmet := (meet_traces hcoherent incident).pairwise.imp
      fun h => hmoves incident List.mem_cons_self h
    rw [Outcome.moments, ← List.cons_append] at hmet
    obtain ⟨hnow, _, hlast⟩ := List.pairwise_append.mp hmet
    have hleft : (server.meet incident).server.Coherent :=
      (meet_traces hcoherent incident).coherent _ (Outcome.server_mem_moments _)
    have hrest := ih (fun other hother => hmoves other (List.mem_cons_of_mem _ hother)) hleft
    obtain ⟨others, hothers⟩ := (server.meet incident).server.moments_eq_cons rest
    rw [moments, hothers]
    rw [hothers] at hrest
    refine List.pairwise_append.mpr ⟨hnow, hrest, fun earlier hearlier later hlater => ?_⟩
    -- Whatever comes later comes through the server that the incident left.
    have hearlier_left := hlast earlier hearlier _ List.mem_cons_self
    rcases List.mem_cons.mp hlater with rfl | hlater
    · exact hearlier_left
    · exact htrans hearlier_left ((List.pairwise_cons.mp hrest).1 later hlater)

/-- What holds of every posting of an incident holds of all that is posted in a life. -/
theorem forall_posted {property : Incident → Posting σ → Prop}
    (hcoherent : server.Coherent)
    (hstep : ∀ (present : Server σ), present.Coherent → ∀ incident ∈ incidents,
      ∀ posting ∈ (present.meet incident).postings, property incident posting) :
    ∀ incident posting, (incident, posting) ∈ server.posted incidents →
      property incident posting := by
  induction incidents generalizing server with
  | nil => simp [posted]
  | cons first rest ih =>
    intro incident posting hposted
    rcases List.mem_append.mp hposted with hnow | hlater
    · obtain ⟨made, hposting, heq⟩ := List.mem_map.mp hnow
      obtain ⟨rfl, rfl⟩ := Prod.mk.inj heq
      exact hstep server hcoherent first List.mem_cons_self made hposting
    · have hleft : (server.meet first).server.Coherent :=
        (meet_traces hcoherent first).coherent _ (Outcome.server_mem_moments _)
      refine ih hleft (fun present hpresent other hother => ?_) incident posting hlater
      exact hstep present hpresent other (List.mem_cons_of_mem _ hother)

end Server

end Consensus
