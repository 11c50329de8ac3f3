import LazilyPy.Signaling.Room
import LazilyPy.Lib.Throughout

/-!
# Who a frame is from

A directed frame is forwarded under the peer that the room has for its sender. A join is accepted as any
peer, also as one that another connection has joined as: then two connections are one peer, until the
second leaves or joins as another.
-/

namespace LazilyPy.Signaling.RoomCore

open List Option

variable {α : Type}

/-- The peer of each connection and the connection of each peer are inverse to each other. -/
def Inverse (s : RoomCore) : Prop :=
  ∀ conn peer, s.peerOf conn = some peer ↔ s.connOf peer = some conn

/-- A frame that is forwarded is from the peer of its sender, whom no other connection has joined as,
and goes to the one connection that has joined as its target. -/
def Faithful (s : RoomCore) : Input α → Prop
  | .frame conn frame => ∀ e ∈ s.emits (.frame conn frame), ∀ sender, e.2.frm = some sender →
      s.peerOf conn = some sender ∧ (∀ conn', s.peerOf conn' = some sender → conn' = conn) ∧
        s.emits (.frame conn frame) = [e] ∧ ∃ target, frame.toPeer = some target ∧
          s.peerOf e.1 = some target ∧ ∀ conn', s.peerOf conn' = some target → conn' = e.1
  | .allow _ _ => True

def Unclaimed (s : RoomCore) : Input α → Prop
  | .frame conn frame => ∀ peer, Joins frame peer → ∀ conn', s.peerOf conn' = some peer → conn' = conn
  | .allow _ _ => True

variable {s : RoomCore} {conn conn' : String} {peer : ℤ}

/-! ### One frame -/

theorem Inverse.unique (h : s.Inverse) (hpeer : s.peerOf conn = some peer)
    (hpeer' : s.peerOf conn' = some peer) : conn' = conn := by
  have hconn := (h conn peer).mp hpeer
  have hconn' := (h conn' peer).mp hpeer'
  exact some.inj (hconn'.symm.trans hconn)

theorem Inverse.register (h : s.Inverse) (capabilities : List String)
    (hfree : ∀ conn', s.peerOf conn' = some peer → conn' = conn) :
    (s.register conn peer capabilities).Inverse := by
  intro conn' peer'
  rw [peerOf_register, connOf_register]
  by_cases hconn : conn' = conn
  · rw [if_pos hconn, hconn]
    by_cases hpeer : peer' = peer
    · rw [if_pos hpeer, hpeer]
      exact iff_of_true rfl rfl
    · rw [if_neg hpeer]
      refine iff_of_false (fun heq => hpeer (some.inj heq).symm) ?_
      -- the connection was another peer, and is detached from it
      split
      · exact nofun
      next hold => exact fun heq => hold ((h conn peer').mpr heq)
  · rw [if_neg hconn]
    by_cases hpeer : peer' = peer
    · rw [if_pos hpeer, hpeer]
      exact iff_of_false (fun heq => hconn (hfree conn' heq)) fun heq => hconn (some.inj heq).symm
    · rw [if_neg hpeer]
      split
      next hold => exact iff_of_false (fun heq => hconn (h.unique hold heq)) nofun
      · exact h conn' peer'

theorem Inverse.unregister (h : s.Inverse) (hpeer : s.peerOf conn = some peer) :
    (s.unregister conn peer).Inverse := by
  intro conn' peer'
  rw [peerOf_unregister, connOf_unregister]
  by_cases hconn : conn' = conn
  · rw [if_pos hconn, hconn]
    refine iff_of_false nofun ?_
    split
    · exact nofun
    next hne =>
      intro heq
      have hpeer' := (h conn peer').mpr heq
      exact hne (some.inj (hpeer'.symm.trans hpeer))
  · rw [if_neg hconn]
    by_cases hpeer' : peer' = peer
    · rw [if_pos hpeer', hpeer']
      exact iff_of_false (fun heq => hconn (h.unique hpeer heq)) nofun
    · rw [if_neg hpeer']
      exact h conn' peer'

theorem Inverse.step (h : s.Inverse) {input : Input α} (hfree : s.Unclaimed input) : (s.step input).Inverse := by
  cases input with
  | allow sender target => exact h
  | frame conn frame =>
    show (s.handle conn frame).2.Inverse
    obtain ⟨hsame, -, -⟩ | ⟨peer, hjoins, heq⟩ | ⟨peer, -, hpeer, heq⟩ := handle_cases conn frame s
    · rwa [hsame]
    · rw [heq]
      exact h.register _ (hfree peer hjoins)
    · rw [heq]
      exact h.unregister hpeer

/-- A join as the peer of another connection leaves two connections that are one peer. -/
theorem unclaimed_of_inverse {input : Input α} (h : (s.step input).Inverse) : s.Unclaimed input := by
  cases input with
  | allow sender target => trivial
  | frame conn frame =>
    intro peer hjoins conn' hpeer'
    obtain ⟨-, -, hno⟩ | ⟨joined, hjoined, heq⟩ | ⟨-, hno, -, -⟩ := handle_cases conn frame s
    · exact absurd hjoins (hno peer)
    · obtain rfl : peer = joined := some.inj (hjoins.2.symm.trans hjoined.2)
      have hregister : (s.register conn peer (frame.capabilities.getD [])).Inverse := by
        have hstep : s.step (.frame conn frame) = (s.handle conn frame).2 := rfl
        rwa [hstep, heq] at h
      have hconn : (s.register conn peer (frame.capabilities.getD [])).peerOf conn = some peer := by
        rw [peerOf_register, if_pos rfl]
      refine hregister.unique hconn ?_
      rw [peerOf_register]
      split
      · rfl
      · exact hpeer'
    · exact absurd hjoins (hno peer)

theorem frm_eq_none_of_mem_announce {kind : SignalingFrameKind} {e : Emit α}
    (he : e ∈ s.announce kind conn peer) : e.2.frm = none := by
  obtain ⟨row, -, rfl⟩ := List.mem_map.mp he
  rfl

theorem Inverse.faithful (h : s.Inverse) (input : Input α) : s.Faithful input := by
  cases input with
  | allow sender target => trivial
  | frame conn frame =>
    intro e he sender hfrm
    have hemits : s.emits (.frame conn frame) = (s.handle conn frame).1 := rfl
    rw [hemits] at he ⊢
    have hno {emits : List (Emit α)} (hnone : ∀ e ∈ emits, e.2.frm = none)
        (heq : (s.handle conn frame).1 = emits) : False := by
      have hfrm' := hnone e (heq ▸ he)
      rw [hfrm] at hfrm'
      cases hfrm'
    have herror (code : String) (message : Message) :
        ∀ e ∈ (errorFrame conn code message : List (Emit α)), e.2.frm = none := by
      intro e he
      obtain rfl := mem_singleton.mp he
      rfl
    obtain ⟨-, heq⟩ | ⟨-, heq⟩ | ⟨-, -, heq⟩ | ⟨-, heq⟩ := handle_eq conn frame s
    · obtain ⟨-, hjoin⟩ | ⟨peer, -, hjoin⟩ := onJoin_cases conn frame s
      · exact (hno (herror _ _) (by rw [heq, hjoin])).elim
      · refine (hno ?_ (by rw [heq, hjoin])).elim
        intro e he
        obtain rfl | he := mem_cons.mp he
        · rfl
        · exact frm_eq_none_of_mem_announce he
    · obtain ⟨-, hleave⟩ | ⟨peer, -, hleave⟩ := onLeave_cases (α := α) conn s
      · exact (hno (forall_mem_nil _) (by rw [heq, hleave])).elim
      · exact (hno (fun e he => frm_eq_none_of_mem_announce he) (by rw [heq, hleave])).elim
    · obtain ⟨code, message, hforward⟩ | ⟨joined, target, targetConn, hjoined, htarget, hconn,
          hforward⟩ := onDirected_cases conn frame s
      · exact (hno (herror _ _) (by rw [heq, hforward])).elim
      · rw [heq, hforward] at he ⊢
        obtain rfl := mem_singleton.mp he
        obtain rfl : joined = sender := some.inj hfrm
        have hpeer := (h targetConn target).mpr hconn
        exact ⟨hjoined, fun conn' hconn' => h.unique hjoined hconn', rfl, target, htarget, hpeer,
          fun conn' hconn' => h.unique hpeer hconn'⟩
    · exact (hno (herror _ _) (by rw [heq])).elim

/-! ### Runs -/

theorem inverse_run (mode : PermissionMode) {inputs : List (Input α)}
    (hfree : Throughout (fun before input => (run mode before).Unclaimed input) inputs)
    (before after : List (Input α)) (heq : inputs = before ++ after) : (run mode before).Inverse := by
  induction before using reverseRecOn generalizing after with
  | nil => exact fun conn peer => iff_of_false nofun nofun
  | append_singleton before input ih =>
    rw [append_assoc, singleton_append] at heq
    rw [run_concat]
    exact (ih (input :: after) heq).step (hfree before input after heq)

/-- The peers of connections and the connections of peers are inverse to each other in every state that
is reached, and what is forwarded there is from its sender and to its target, if and only if no
connection joins as a peer that another connection has joined as. -/
theorem identities_iff (mode : PermissionMode) (inputs : List (Input α)) :
    ((∀ before after, inputs = before ++ after → (run mode before).Inverse) ∧
      Throughout (fun before input => (run mode before).Faithful input) inputs) ↔
    Throughout (fun before input => (run mode before).Unclaimed input) inputs := by
  constructor
  · rintro ⟨hinverse, -⟩ before input after heq
    refine unclaimed_of_inverse ?_
    rw [← run_concat]
    exact hinverse (before ++ [input]) after (by rw [heq, append_assoc, singleton_append])
  · intro hfree
    have hinverse := inverse_run mode hfree
    refine ⟨hinverse, ?_⟩
    intro before input after heq
    exact (hinverse before (input :: after) heq).faithful input

/-- A second connection joins as the peer of the first, and its frame is forwarded as from that peer. -/
theorem identity_shared :
    let join (conn : String) (peer : ℤ) : Input Unit :=
      .frame conn { type := SignalingFrameKind.join.value, peer := peer }
    let s := run .openMode [join "A" 1, join "C" 2, join "B" 1]
    ¬ s.Inverse ∧ s.peerOf "A" = some 1 ∧ s.peerOf "B" = some 1 ∧
      ¬ s.Faithful (.frame "B" { type := SignalingFrameKind.offer.value, toPeer := some 2 } : Input Unit) := by
  intro join s
  have hA : s.peerOf "A" = some 1 := by decide +kernel
  have hB : s.peerOf "B" = some 1 := by decide +kernel
  have hconn : s.connOf 1 = some "B" := by decide +kernel
  refine ⟨fun hinverse => ?_, hA, hB, fun hfaithful => ?_⟩
  · have h := (hinverse "A" 1).mp hA
    rw [hconn] at h
    exact absurd h (by decide)
  · obtain ⟨-, hunique, -⟩ := hfaithful
      ("C", { type := SignalingFrameKind.offer.value, frm := some 1 }) (by decide +kernel) 1 rfl
    exact absurd (hunique "A" hA) (by decide)

end LazilyPy.Signaling.RoomCore
