import Consensus.Proofs.Node.Handling
import Consensus.Proofs.World.Basic

/-!
# Every packet is backed

A packet says what the event that it becomes says, and the response to a request
says what the handler answered.  What links the two is the memo: it names the
term or the batch of the request, so a response that comes back with it can be
read without the request.
-/

namespace Consensus

variable {S : Scope} {ℓ ℓ' : Ledger} {w : World} {id applied : ℕ} {event : Event}
  {origin : Option Origin} {effect : Effect} {packet : Packet}

/-- What a packet says is in the ledger. -/
def Packet.Backed (S : Scope) (ℓ : Ledger) : Packet → Prop
  | .request asker _ (.vote term) (.requestVote r) =>
      r.term = term ∧ r.candidate = asker ∧ r.Backed ℓ
  | .request _ _ (.vote _) _ => False
  | .request _ _ (.batch batch) r => r.Backed S ℓ batch
  | .response asker asked (.vote term) (.vote reply) =>
      reply.granted = true → ℓ.vote asked term = some asker
  | .response _ _ (.vote _) _ => True
  | .response _ asked (.batch batch) r => r.Backed ℓ asked batch

theorem Packet.Backed.mono (h : packet.Backed S ℓ) (hgrows : ℓ.Grows ℓ') :
    packet.Backed S ℓ' := by
  cases packet with
  | request asker asked memo request =>
      cases memo with
      | vote term =>
          cases request with
          | requestVote request => exact ⟨h.1, h.2.1, h.2.2.mono hgrows⟩
          | _ => exact h
      | batch batch => exact Request.Backed.mono h hgrows
  | response asker asked memo response =>
      cases memo with
      | vote term =>
          cases response with
          | vote reply =>
              exact fun hgranted => hgrows.vote _ _ _ (h hgranted)
          | _ => trivial
      | batch batch => exact Response.Backed.mono h hgrows

/-- The memo of a request names what the event asks. -/
def Origin.Fits (origin : Origin) : Event → Prop
  | .voteRequest _ request =>
      origin.memo = .vote request.term ∧ request.candidate = origin.asker
  | .appendRequest _ request =>
      origin.memo = .batch
        ⟨request.term, .append request.prevIndex request.entries.length⟩
  | .installRequest _ request =>
      origin.memo = .batch ⟨request.term, .snapshot request.lastIncludedIndex⟩
  | _ => True

/-- A request becomes a backed event that its memo fits. -/
theorem Packet.Backed.becomes {asker ticket : ℕ} {memo : Memo} {request : Request}
    {kind : CallKind} (h : (Packet.request asker id memo request).Backed S ℓ)
    (hevent : request.event? ticket = some (kind, event)) :
    event.Backed S ℓ id ∧ (Origin.mk asker memo ticket).Fits event := by
  cases memo with
  | vote term =>
      cases request with
      | requestVote request =>
          obtain ⟨rfl, hcandidate, hbacked⟩ := h
          obtain ⟨rfl, rfl⟩ := Prod.mk.inj (Option.some.inj hevent)
          exact ⟨hbacked, rfl, hcandidate⟩
      | _ => exact h.elim
  | batch batch =>
      cases request with
      | appendEntries request =>
          obtain ⟨hbacked, rfl⟩ := h
          obtain ⟨rfl, rfl⟩ := Prod.mk.inj (Option.some.inj hevent)
          exact ⟨hbacked, rfl⟩
      | installSnapshot request =>
          obtain ⟨hbacked, rfl⟩ := h
          obtain ⟨rfl, rfl⟩ := Prod.mk.inj (Option.some.inj hevent)
          exact ⟨hbacked, rfl⟩
      | _ => exact h.elim

/-- Whatever a node may be told is backed. -/
theorem World.Arrives.backed (h : w.Arrives S id event origin)
    (hsent : ∀ packet ∈ w.sent, packet.Backed S ℓ) :
    event.Backed S ℓ id ∧ ∀ asked, origin = some asked → asked.Fits event := by
  cases h with
  | request hin hevent =>
      obtain ⟨hbacked, hfits⟩ := (hsent _ hin).becomes hevent
      refine ⟨hbacked, fun asked hasked => ?_⟩
      rw [← Option.some.inj hasked]
      exact hfits
  | voteReply hin => exact ⟨hsent _ hin, fun _ h => absurd h (by simp)⟩
  | replicationReply hin => exact ⟨hsent _ hin, fun _ h => absurd h (by simp)⟩
  | change hchanges => exact ⟨hchanges, fun _ h => absurd h (by simp)⟩
  | _ => exact ⟨trivial, fun _ h => absurd h (by simp)⟩

/-- An answer in passing is for a client, so as a response it says nothing. -/
theorem Effect.Backed.response {ticket asker : ℕ} {answer : Answer} {memo : Memo}
    (h : (Effect.answer ticket answer).Backed S ℓ id applied) :
    (Packet.response asker id memo answer.toResponse).Backed S ℓ := by
  cases memo with
  | vote term =>
      cases answer with
      | vote reply => exact h.elim
      | _ => trivial
  | batch batch =>
      obtain ⟨term, kind⟩ := batch
      cases answer with
      | vote reply => exact h.elim
      | append reply => exact h.elim
      | install reply => exact h.elim
      | _ => cases kind <;> trivial

/-- The answer in the end says as a response what it says as an answer. -/
theorem Answer.Backed.response {answer : Answer} {asked : Origin}
    (h : answer.Backed ℓ id event) (hfits : asked.Fits event) :
    (Packet.response asked.asker id asked.memo answer.toResponse).Backed S ℓ := by
  obtain ⟨asker, memo, ticket⟩ := asked
  cases event with
  | voteRequest ticket request =>
      obtain ⟨rfl, rfl⟩ := hfits
      cases answer with
      | vote reply => exact h
      | _ => exact h.elim
  | appendRequest ticket request =>
      obtain rfl := hfits
      cases answer with
      | append reply => exact h
      | _ => exact h.elim
  | installRequest ticket request =>
      obtain rfl := hfits
      cases answer with
      | install reply => exact h
      | _ => exact h.elim
  | _ => cases answer <;> exact h.elim

/-- Whatever a node sends is backed. -/
theorem Effect.Told.sends (h : effect.Told S ℓ id applied event)
    (hfits : ∀ asked, origin = some asked → asked.Fits event)
    (hpacket : effect.packet? id origin = some packet) : packet.Backed S ℓ := by
  cases effect with
  | requestVote peer request =>
      obtain rfl := Option.some.inj hpacket
      rcases h with ⟨hself, hbacked⟩ | ⟨_, _, hanswer, -⟩
      · exact ⟨rfl, hself, hbacked⟩
      · exact absurd hanswer (by simp)
  | dispatch peer request batch =>
      obtain rfl := Option.some.inj hpacket
      rcases h with ⟨hbacked, -⟩ | ⟨_, _, hanswer, -⟩
      · exact hbacked
      · exact absurd hanswer (by simp)
  | answer ticket answer =>
      cases origin with
      | none => exact absurd hpacket (by simp [Effect.packet?])
      | some asked =>
          by_cases hticket : ticket = asked.ticket
          · have hsame : some packet = some (Packet.response asked.asker id
                asked.memo answer.toResponse) :=
              hpacket.symm.trans (if_pos hticket)
            rw [Option.some.inj hsame]
            rcases h with hbacked | ⟨_, _, hanswer, hbacked⟩
            · exact hbacked.response
            · obtain ⟨rfl, rfl⟩ := Effect.answer.inj hanswer
              exact hbacked.response (hfits asked rfl)
          · exact absurd (hpacket.symm.trans (if_neg hticket)) (by simp)
  | _ => exact absurd hpacket (by simp [Effect.packet?])

/-- What a request stands for was applied by the node that sent it. -/
theorem Effect.Told.covered_le {asker asked : ℕ} {memo : Memo} {request : Request}
    (h : effect.Told S ℓ id applied event)
    (hpacket : effect.packet? id origin = some (.request asker asked memo request)) :
    asker = id ∧ request.covered ≤ applied := by
  cases effect with
  | requestVote peer request =>
      cases hpacket
      exact ⟨rfl, Nat.zero_le _⟩
  | dispatch peer request batch =>
      cases hpacket
      rcases h with ⟨-, hcovered⟩ | ⟨_, _, hanswer, -⟩
      · exact ⟨rfl, hcovered⟩
      · exact absurd hanswer (by simp)
  | answer ticket answer =>
      -- an answer travels as a response, if at all
      cases origin with
      | none => exact absurd hpacket (by simp [Effect.packet?])
      | some origin =>
          by_cases hticket : ticket = origin.ticket
          · exact absurd ((if_pos hticket).symm.trans hpacket) (by simp)
          · exact absurd ((if_neg hticket).symm.trans hpacket) (by simp)
  | _ => exact absurd hpacket (by simp [Effect.packet?])

end Consensus
