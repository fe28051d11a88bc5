import Consensus.Proofs.Log.Entries
import Consensus.Replication.Cursor
import Consensus.Server.State
import Consensus.Wire.Command

/-! # A server's part in the protocol

What other servers can come to rely on is a server's term, vote, log, leadership
and commit index; its timer and the pace of its sending are left out. Each call to
a server is a sequence of the moves and postings listed here, one at a time, so
what they keep is kept by every call.
-/

namespace Consensus

/-- What a server's part in the protocol depends on. -/
structure View where
  config : Config
  term : Term
  votedFor : Option ServerId
  log : Entries
  leads : Bool
  tally : Tally
  commitIndex : Index
  lastApplied : Index
  /-- The highest index that each follower of a leader is known to hold. -/
  matched : List (ServerId × Index)
  deliveries : List Delivery

/-- The view that a server gives of itself. -/
def Server.view {σ : Type} [Store σ] (server : Server σ) : View where
  config := server.config
  term := server.term
  votedFor := server.votedFor
  log := server.log.entries
  leads := server.role.isLeader
  tally := server.progress.tally
  commitIndex := server.commitIndex
  lastApplied := server.progress.lastApplied
  matched := server.progress.cursors.map fun cursor => (cursor.serverId, cursor.matchIndex)
  deliveries := server.delivered.toList

/-! ## What requests say of logs -/

namespace Entries

/-- The request shows the log at one place: the key in front of it and the entry there,
if there is one. -/
structure Shows (log : Entries) (request : AppendRequest) : Prop where
  prev_termAt : log.termAt? request.prevLogEntry.index = some request.prevLogEntry.term
  entry_eq : request.entry = log.entryAt? (request.prevLogEntry.index + 1)

/-- The log holds what the request shows of the leader's log. -/
structure Reflects (log : Entries) (request : AppendRequest) : Prop where
  holds_prev : log.Holds request.prevLogEntry
  holds_entry : ∀ entry, request.entry = some entry →
    entry.index = request.prevLogEntry.index + 1 ∧ log.Holds entry.key

/-- The log holds another term than the request at a key of the request. -/
inductive Contradicts (log : Entries) (request : AppendRequest) : Index → Prop where
  | prev (h : log.Conflicts request.prevLogEntry) :
      Contradicts log request request.prevLogEntry.index
  | entry {entry : PlacedEntry} (hentry : request.entry = some entry)
      (hindex : entry.index = request.prevLogEntry.index + 1)
      (h : log.Conflicts entry.key) :
      Contradicts log request entry.index

end Entries

namespace View

/-- The server that gives the view. -/
def id (view : View) : ServerId := view.config.serverId

/-- A view without leadership, votes and knowledge of followers. -/
def retired (view : View) : View :=
  { view with leads := false, tally := view.tally.clear, matched := [] }

/-! ## Moves -/

/-- What a server is given: messages on the channels of its peers, commands to add behind
its log, and perhaps a new start. -/
structure Intake where
  received : ServerId → Message → Prop
  submitted : Entries → Bytes → Prop
  restarted : Prop

variable (intake : Intake) (view : View)

/-- The request has arrived and is of a term in which the server does not lead. -/
structure Heeds (request : AppendRequest) : Prop where
  arrived : ∃ sender, intake.received sender (.appendRequest request)
  term_eq : request.term = view.term
  follows : view.leads = false

/-- A quorum of the cluster is known to hold the index, the leader included. -/
def Replicated (index : Index) : Prop :=
  view.config.majority ≤ view.matched.countP (fun follower => decide (index ≤ follower.2)) + 1

/-- Every match index that was not known before is one that its follower reported. -/
def Reported (matched : List (ServerId × Index)) : Prop :=
  ∀ follower ∈ matched, follower ∈ view.matched ∨
    ∃ sender response, intake.received sender (.appendResponse response) ∧
      response.term = view.term ∧ response.successful = true ∧
      response.serverId = follower.1 ∧ follower.2 ≤ response.matchLogIndex

/-- One move of a server that is given `intake`. -/
inductive Move : View → Prop where
  /-- Follow an event of a newer term. -/
  | adopt {sender : ServerId} {message : Message} (harrived : intake.received sender message)
      (hnewer : view.term < message.term) :
      Move { view.retired with term := message.term, votedFor := none }
  /-- Become a follower of the present term. A leader does so only for a candidate that it
  has voted for. -/
  | concede
      (hleads : view.leads = true → ∃ sender request,
        intake.received sender (.voteRequest request) ∧
        view.votedFor = some request.candidateId) :
      Move view.retired
  /-- Vote for the first time in the present term. -/
  | vote {sender : ServerId} {request : VoteRequest}
      (harrived : intake.received sender (.voteRequest request)) (hterm : request.term = view.term)
      (hfree : view.votedFor = none) :
      Move { view with votedFor := some request.candidateId }
  /-- Open the election of the next term. -/
  | campaign (hleads : view.leads = false) (hterm : view.term < maxTerm) :
      Move { view with
        term := view.term + 1
        votedFor := some view.id
        tally := .start (view.term + 1) view.id }
  /-- Count a vote of the present term. -/
  | countVote {sender : ServerId}
      (harrived : intake.received sender (.voteResponse ⟨view.term, true⟩))
      (hcounts : view.tally.Counts view.term sender) :
      Move { view with tally := view.tally.record view.term sender }
  /-- Lead after an election that is won. -/
  | win {matched : List (ServerId × Index)} (hleads : view.leads = false)
      (htally : view.tally.term = view.term)
      (hwon : view.config.majority ≤ view.tally.size)
      (hdistinct : (matched.map Prod.fst).Nodup)
      (hpeers : ∀ follower ∈ matched, follower.1 ∈ view.config.peerIds)
      (hunknown : ∀ follower ∈ matched, follower.2 = nullIndex) :
      Move { view with leads := true, matched }
  /-- Add a command to the log of a leader. -/
  | extend {command : Bytes} (hleads : view.leads = true)
      (hsubmitted : intake.submitted view.log command) :
      Move { view with log := view.log ++ [⟨view.term, command⟩] }
  /-- Take note of what followers have reported. -/
  | learn {matched : List (ServerId × Index)} (hleads : view.leads = true)
      (hservers : matched.map Prod.fst = view.matched.map Prod.fst)
      (hreported : view.Reported intake matched) :
      Move { view with matched }
  /-- Commit an entry of the leader's own term. -/
  | commit {index : Index} (hleads : view.leads = true) (hraise : view.commitIndex < index)
      (hterm : view.log.termAt? index = some view.term) (hquorum : view.Replicated index) :
      Move { view with commitIndex := index }
  /-- Drop an uncommitted suffix that contradicts the leader. -/
  | truncate {request : AppendRequest} {index : Index} (hheeds : view.Heeds intake request)
      (hcontra : view.log.Contradicts request index) (hopen : view.commitIndex < index) :
      Move { view with log := view.log.take index.toNat }
  /-- Take over the leader's entry at the end of the log. -/
  | place {request : AppendRequest} {entry : PlacedEntry} (hheeds : view.Heeds intake request)
      (hentry : request.entry = some entry) (hprev : view.log.Holds request.prevLogEntry)
      (hindex : entry.index = request.prevLogEntry.index + 1)
      (hend : (view.log.length : Int) = entry.index) :
      Move { view with log := view.log ++ [⟨entry.term, entry.command⟩] }
  /-- Follow the leader's commit index, as far as the request vouches for the log. -/
  | followCommit {request : AppendRequest} (hheeds : view.Heeds intake request)
      (hreflects : view.log.Reflects request)
      (hraise : view.commitIndex < min request.leaderCommit request.lastNewIndex) :
      Move { view with commitIndex := min request.leaderCommit request.lastNewIndex }
  /-- Hand the next committed command to the state machine. -/
  | deliver {entry : Entry} {command : Command} (hdue : view.lastApplied < view.commitIndex)
      (hread : view.log.read? (view.lastApplied + 1) = some entry)
      (hdecode : Command.decode entry.command = .ok command) :
      Move { view with
        lastApplied := view.lastApplied + 1
        deliveries := view.deliveries ++ [⟨view.lastApplied + 1, command⟩] }
  /-- Start anew from what is stored. -/
  | restart (hrestarted : intake.restarted) :
      Move { view with
        leads := false
        tally := {}
        commitIndex := nullIndex
        lastApplied := nullIndex
        matched := []
        deliveries := [] }

/-! ## Postings -/

/-- The server vouches for a message that it sends to `receiver`. -/
inductive Vouches (receiver : ServerId) : Message → Prop where
  | askVote (hself : view.votedFor = some view.id) :
      Vouches receiver (.voteRequest ⟨view.term, view.id, view.log.lastKey⟩)
  | grant {request : VoteRequest} (harrived : intake.received receiver (.voteRequest request))
      (hterm : request.term = view.term) (hvote : view.votedFor = some request.candidateId)
      (hkey : request.lastLogEntry.AtLeastAsUpToDate view.log.lastKey) :
      Vouches receiver (.voteResponse ⟨view.term, true⟩)
  | refuse : Vouches receiver (.voteResponse ⟨view.term, false⟩)
  | replicate {request : AppendRequest} (hleads : view.leads = true)
      (hterm : request.term = view.term) (hleader : request.leaderId = view.id)
      (hcommit : request.leaderCommit = view.commitIndex) (hshows : view.log.Shows request) :
      Vouches receiver (.appendRequest request)
  | acknowledge {request : AppendRequest}
      (harrived : intake.received receiver (.appendRequest request))
      (hterm : request.term = view.term) (hreflects : view.log.Reflects request) :
      Vouches receiver (.appendResponse ⟨view.term, true, view.id, request.lastNewIndex⟩)
  | decline : Vouches receiver
      (.appendResponse ⟨view.term, false, view.id, (view.log.length : Int) - 1⟩)
  | handOver (hleads : view.leads = true) (hpeer : view.config.isPeer receiver = true) :
      Vouches receiver (.timeoutNow ⟨view.term, receiver⟩)

variable {intake view}

/-! ## What a move can do -/

theorem Move.config_eq {next : View} (hmove : view.Move intake next) :
    next.config = view.config := by
  cases hmove <;> rfl

theorem Move.id_eq {next : View} (hmove : view.Move intake next) : next.id = view.id :=
  congrArg Config.serverId hmove.config_eq

theorem Move.term_le {next : View} (hmove : view.Move intake next) : view.term ≤ next.term := by
  cases hmove with
  | adopt _ hnewer => exact Int.le_of_lt hnewer
  | campaign => exact Int.le_add_one (Int.le_refl _)
  | _ => exact Int.le_refl _

/-- A vote stays what it is as long as the term does. -/
theorem Move.votedFor_eq {next : View} (hmove : view.Move intake next)
    (hterm : next.term = view.term) {candidate : ServerId}
    (hvote : view.votedFor = some candidate) : next.votedFor = some candidate := by
  cases hmove with
  | adopt _ hnewer => exact absurd hterm (Int.ne_of_gt hnewer)
  | campaign => exact absurd hterm (Int.ne_of_gt (Int.lt_succ view.term))
  | vote _ _ hfree => simp [hfree] at hvote
  | _ => exact hvote

/-- A server that leads after a move led its term before, or has just won it. -/
theorem Move.leads_cases {next : View} (hmove : view.Move intake next)
    (hleads : next.leads = true) :
    next.term = view.term ∧ (view.leads = true ∨ (view.leads = false ∧
      next.votedFor = view.votedFor ∧ next.log = view.log ∧ next.tally = view.tally ∧
      view.tally.term = view.term ∧ view.config.majority ≤ view.tally.size)) := by
  cases hmove with
  | win hfollows htally hwon =>
    exact ⟨rfl, .inr ⟨hfollows, rfl, rfl, rfl, htally, hwon⟩⟩
  | campaign hfollows =>
    rw [show view.leads = true from hleads] at hfollows
    exact absurd hfollows (by decide)
  | adopt => exact absurd hleads (by simp [retired])
  | concede => exact absurd hleads (by simp [retired])
  | restart => exact absurd hleads (by simp)
  | _ => exact ⟨rfl, .inl hleads⟩

/-- What a move can do to a log: nothing, or add a leader's own entry, or bring it closer
to the log of a leader of the same term. -/
theorem Move.log_cases {next : View} (hmove : view.Move intake next) :
    next.log = view.log ∨
    (next.term = view.term ∧ view.leads = true ∧ next.leads = true ∧
      ∃ command, intake.submitted view.log command ∧
        next.log = view.log ++ [⟨view.term, command⟩]) ∨
    ∃ request, view.Heeds intake request ∧ next.term = view.term ∧ next.leads = false ∧
      ((∃ index, view.log.Contradicts request index ∧ view.commitIndex < index ∧
          next.log = view.log.take index.toNat) ∨
        ∃ entry, request.entry = some entry ∧ view.log.Holds request.prevLogEntry ∧
          entry.index = request.prevLogEntry.index + 1 ∧
          (view.log.length : Int) = entry.index ∧
          next.log = view.log ++ [⟨entry.term, entry.command⟩]) := by
  cases hmove with
  | extend hleads hsubmitted =>
    exact .inr (.inl ⟨rfl, hleads, hleads, _, hsubmitted, rfl⟩)
  | truncate hheeds hcontra hopen =>
    exact .inr (.inr ⟨_, hheeds, rfl, hheeds.follows, .inl ⟨_, hcontra, hopen, rfl⟩⟩)
  | place hheeds hentry hprev hindex hend =>
    exact .inr (.inr ⟨_, hheeds, rfl, hheeds.follows,
      .inr ⟨_, hentry, hprev, hindex, hend, rfl⟩⟩)
  | _ => exact .inl rfl

/-! ## More to go on -/

/-- All that one intake gives, the other gives too. -/
structure Intake.Within (narrow wide : Intake) : Prop where
  received : ∀ sender message, narrow.received sender message → wide.received sender message
  submitted : ∀ log command, narrow.submitted log command → wide.submitted log command
  restarted : narrow.restarted → wide.restarted

variable {wide : Intake}

theorem Heeds.mono {request : AppendRequest} (hwithin : intake.Within wide)
    (h : view.Heeds intake request) : view.Heeds wide request :=
  ⟨h.arrived.imp fun sender => hwithin.received sender _, h.term_eq, h.follows⟩

theorem Reported.mono {matched : List (ServerId × Index)} (hwithin : intake.Within wide)
    (h : view.Reported intake matched) : view.Reported wide matched := by
  intro follower hfollower
  apply (h follower hfollower).imp_right
  rintro ⟨sender, response, harrived, hresponse⟩
  exact ⟨sender, response, hwithin.received _ _ harrived, hresponse⟩

theorem Move.mono {next : View} (hwithin : intake.Within wide) (hmove : view.Move intake next) :
    view.Move wide next := by
  cases hmove with
  | adopt harrived hnewer => exact .adopt (hwithin.received _ _ harrived) hnewer
  | concede hleads =>
    refine .concede fun hled => ?_
    obtain ⟨sender, request, harrived, hvote⟩ := hleads hled
    exact ⟨sender, request, hwithin.received _ _ harrived, hvote⟩
  | vote harrived hterm hfree => exact .vote (hwithin.received _ _ harrived) hterm hfree
  | campaign hleads hterm => exact .campaign hleads hterm
  | countVote harrived hcounts => exact .countVote (hwithin.received _ _ harrived) hcounts
  | win hleads htally hwon hdistinct hpeers hunknown =>
    exact .win hleads htally hwon hdistinct hpeers hunknown
  | extend hleads hsubmitted => exact .extend hleads (hwithin.submitted _ _ hsubmitted)
  | learn hleads hservers hreported => exact .learn hleads hservers (hreported.mono hwithin)
  | commit hleads hraise hterm hquorum => exact .commit hleads hraise hterm hquorum
  | truncate hheeds hcontra hopen => exact .truncate (hheeds.mono hwithin) hcontra hopen
  | place hheeds hentry hprev hindex hend =>
    exact .place (hheeds.mono hwithin) hentry hprev hindex hend
  | followCommit hheeds hreflects hraise =>
    exact .followCommit (hheeds.mono hwithin) hreflects hraise
  | deliver hdue hread hdecode => exact .deliver hdue hread hdecode
  | restart hrestarted => exact .restart (hwithin.restarted hrestarted)

theorem Vouches.mono {receiver : ServerId} {message : Message} (hwithin : intake.Within wide)
    (hvouches : view.Vouches intake receiver message) : view.Vouches wide receiver message := by
  cases hvouches with
  | askVote hself => exact .askVote hself
  | grant harrived hterm hvote hkey =>
    exact .grant (hwithin.received _ _ harrived) hterm hvote hkey
  | refuse => exact .refuse
  | replicate hleads hterm hleader hcommit hshows =>
    exact .replicate hleads hterm hleader hcommit hshows
  | acknowledge harrived hterm hreflects =>
    exact .acknowledge (hwithin.received _ _ harrived) hterm hreflects
  | decline => exact .decline
  | handOver hleads hpeer => exact .handOver hleads hpeer

end View

end Consensus
