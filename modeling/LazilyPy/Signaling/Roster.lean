import LazilyPy.Signaling.Identity
import Mathlib.Data.Finset.Basic

/-!
# What a connection knows of the roster

A connection is told the roster when it joins, and every join and leave after that. The room tells nothing
of the peer that a connection was before it joined as another, and so that peer stays in what the other
connections know.
-/

namespace LazilyPy.Signaling

open List Option
open SignalingFrameKind (ofValue? ofValue?_value peerJoined peerLeft)

variable {α : Type}

def hears (view : Finset ℤ) (frame : SignalingFrame α) : Finset ℤ :=
  match ofValue? frame.type with
  | some .welcome => (frame.peers.getD []).toFinset
  | some .peerJoined => frame.peer.elim view fun peer => insert peer view
  | some .peerLeft => frame.peer.elim view fun peer => view.erase peer
  | _ => view

def heardBy (conn : String) (emits : List (Emit α)) : List (SignalingFrame α) :=
  (emits.filter fun e => e.1 = conn).map Prod.snd

theorem heardBy_append (conn : String) (emits emits' : List (Emit α)) :
    heardBy conn (emits ++ emits') = heardBy conn emits ++ heardBy conn emits' := by
  unfold heardBy
  rw [filter_append, map_append]

theorem heardBy_cons_self (conn : String) (frame : SignalingFrame α) (emits : List (Emit α)) :
    heardBy conn ((conn, frame) :: emits) = frame :: heardBy conn emits := by
  unfold heardBy
  rw [filter_cons_of_pos (by simp), map_cons]

theorem heardBy_cons_of_ne {conn conn' : String} (h : conn' ≠ conn) (frame : SignalingFrame α)
    (emits : List (Emit α)) : heardBy conn' ((conn, frame) :: emits) = heardBy conn' emits := by
  unfold heardBy
  rw [filter_cons_of_neg (by simpa using fun heq => h heq.symm)]

theorem foldl_hears_untelling {frames : List (SignalingFrame α)}
    (h : ∀ frame ∈ frames, RoomCore.Untelling frame) (view : Finset ℤ) : frames.foldl hears view = view := by
  induction frames generalizing view with
  | nil => rfl
  | cons frame frames ih =>
    obtain ⟨hframe, hframes⟩ := forall_mem_cons.mp h
    have hsame : hears view frame = view := by
      obtain ⟨hwelcome, hjoined, hleft⟩ := hframe
      unfold hears
      split
      · exact absurd ‹_› hwelcome
      · exact absurd ‹_› hjoined
      · exact absurd ‹_› hleft
      · rfl
    rw [foldl_cons, hsame]
    exact ih hframes view

namespace RoomCore

def session (mode : PermissionMode) (inputs : List (Input α)) : RoomCore × List (Emit α) :=
  inputs.foldl (fun s input => (s.1.step input, s.2 ++ s.1.emits input)) ({ mode := mode }, [])

section

variable (mode : PermissionMode) (inputs : List (Input α))

theorem session_fst :
    (session mode inputs).1 = run mode inputs := by
  induction inputs using reverseRecOn with
  | nil => rfl
  | append_singleton inputs input ih =>
    rw [run_concat, session, foldl_concat, ← ih]
    rfl

theorem session_snd_concat (input : Input α) :
    (session mode (inputs ++ [input])).2 = (session mode inputs).2 ++ (run mode inputs).emits input := by
  rw [session, foldl_concat, ← session_fst]
  rfl

def view (mode : PermissionMode) (inputs : List (Input α)) (conn : String) : Finset ℤ :=
  (heardBy conn (session mode inputs).2).foldl hears ∅

theorem view_concat (input : Input α) (conn : String) : view mode (inputs ++ [input]) conn =
      (heardBy conn ((run mode inputs).emits input)).foldl hears (view mode inputs conn) := by
  rw [view, session_snd_concat, heardBy_append, foldl_append]
  rfl

end

/-- Every connection that has joined knows the roster, but for itself. -/
def Tracks (s : RoomCore) (view : String → Finset ℤ) : Prop :=
  ∀ conn peer, s.peerOf conn = some peer → view conn = s.roster.toFinset.erase peer

/-- A join as another peer happens only while no other connection has joined. -/
def Unrenamed (s : RoomCore) : Input α → Prop
  | .frame conn frame => ∀ peer, Joins frame peer → ∀ old, s.peerOf conn = some old → old ≠ peer →
      ∀ conn' peer', s.peerOf conn' = some peer' → conn' = conn
  | .allow _ _ => True

variable {s : RoomCore} {conn conn' : String} {peer peer' : ℤ}

/-! ### What is told -/

theorem mem_roster (h : s.Inverse) : peer ∈ s.roster ↔ ∃ conn, s.peerOf conn = some peer := by
  have hrow : peer ∈ s.roster ↔ ∃ conn, s.connOf peer = some conn := by
    rw [roster, mem_insertionSort]
    constructor
    · intro hpeer
      obtain ⟨row, hrow, rfl⟩ := List.mem_map.mp hpeer
      exact ⟨row.2, by rw [connOf, Table.get?_of_mem hrow]; rfl⟩
    · rintro ⟨conn, hconn⟩
      obtain ⟨row, hrow, -⟩ := map_eq_some_iff.mp hconn
      exact List.mem_map.mpr ⟨row, Table.mem_of_get? hrow, Table.key_of_get? hrow⟩
  rw [hrow]
  exact exists_congr fun conn => (h conn peer).symm

/-- A peer is announced once to every other connection that has joined. -/
theorem heardBy_announce (kind : SignalingFrameKind) (hne : conn' ≠ conn)
    (hpeer : s.peerOf conn' = some peer') : heardBy conn' (s.announce kind conn peer) =
      [({ type := kind.value, peer := peer } : SignalingFrame α)] := by
  obtain ⟨row, hrow, -⟩ := map_eq_some_iff.mp hpeer
  have hkey := Table.key_of_get? hrow
  have hrows : s.byConn.rows.filter (fun row => row.1 = conn') = [row] := by
    rw [Table.filter_key_eq, hrow]
    rfl
  have hfilter : (s.byConn.rows.filter fun row => row.1 ≠ conn).filter (fun row => row.1 = conn') =
      s.byConn.rows.filter fun row => row.1 = conn' := by
    rw [List.filter_filter]
    refine filter_congr fun row _ => ?_
    by_cases h : row.1 = conn'
    · simp [h, hne]
    · simp [h]
  unfold heardBy announce
  rw [List.filter_map, List.map_map]
  show map _ (filter (fun row : String × PeerConn => row.1 = conn') _) = _
  rw [hfilter, hrows]
  rfl

@[simp] theorem hears_peerJoined (view : Finset ℤ) (peer : ℤ) :
    hears view ({ type := peerJoined.value, peer := peer } : SignalingFrame α) =
      insert peer view := by
  unfold hears
  rw [ofValue?_value]
  rfl

@[simp] theorem hears_peerLeft (view : Finset ℤ) (peer : ℤ) :
    hears view ({ type := peerLeft.value, peer := peer } : SignalingFrame α) =
      view.erase peer := by
  unfold hears
  rw [ofValue?_value]
  rfl

@[simp] theorem hears_welcome (view : Finset ℤ) (peer : ℤ) (s : RoomCore) :
    hears view (s.welcome peer : SignalingFrame α) = s.roster.toFinset.erase peer := by
  unfold hears welcome
  rw [ofValue?_value]
  show (s.roster.filter fun p => p ≠ peer).toFinset = _
  ext p
  rw [List.mem_toFinset, mem_filter, Finset.mem_erase, List.mem_toFinset]
  simp [and_comm]

/-! ### One frame -/

/-- After a join: every connection knows the new peer, and the one it was before goes unnoticed. -/
theorem tracks_register {view view' : String → Finset ℤ} (h : s.Inverse) (htracks : s.Tracks view)
    (capabilities : List String) (hfree : ∀ conn', s.peerOf conn' = some peer → conn' = conn)
    (hself : view' conn = (s.register conn peer capabilities).roster.toFinset.erase peer)
    (hothers : ∀ conn' peer', conn' ≠ conn → s.peerOf conn' = some peer' → view' conn' = insert peer (view conn')) :
    (s.register conn peer capabilities).Tracks view' ↔ ∀ old, s.peerOf conn = some old → old ≠ peer →
        ∀ conn' peer', s.peerOf conn' = some peer' → conn' = conn := by
  have hinverse := h.register capabilities hfree
  have hroster (p : ℤ) : p ∈ (s.register conn peer capabilities).roster ↔
      p = peer ∨ p ∈ s.roster ∧ s.peerOf conn ≠ some p := by
    rw [mem_roster hinverse, mem_roster h]
    constructor
    · rintro ⟨conn', hconn'⟩
      rw [peerOf_register] at hconn'
      split at hconn'
      · exact .inl (some.inj hconn').symm
      next hne => exact .inr ⟨⟨conn', hconn'⟩, fun heq => hne (h.unique heq hconn')⟩
    · rintro (rfl | ⟨⟨conn', hconn'⟩, hne⟩)
      · exact ⟨conn, by rw [peerOf_register, if_pos rfl]⟩
      · refine ⟨conn', ?_⟩
        rw [peerOf_register, if_neg, hconn']
        rintro rfl
        exact hne hconn'
  constructor
  · intro htracks' old hold hne conn' peer' hpeer'
    by_contra hconn
    -- the other connection knew the old peer, and still does
    have hview := htracks' conn' peer' (by rw [peerOf_register, if_neg hconn, hpeer'])
    rw [hothers conn' peer' hconn hpeer', htracks conn' peer' hpeer'] at hview
    have hother : old ≠ peer' := by
      rintro rfl
      exact hconn (h.unique hold hpeer')
    have hmem : old ∈ insert peer (s.roster.toFinset.erase peer') := by
      refine Finset.mem_insert_of_mem (Finset.mem_erase_of_ne_of_mem hother ?_)
      exact List.mem_toFinset.mpr ((mem_roster h).mpr ⟨conn, hold⟩)
    rw [hview] at hmem
    have hafter := (hroster old).mp (List.mem_toFinset.mp (Finset.mem_of_mem_erase hmem))
    obtain heq | ⟨-, hgone⟩ := hafter
    · exact hne heq
    · exact hgone hold
  · intro halone conn' peer' hpeer'
    rw [peerOf_register] at hpeer'
    split at hpeer'
    next heq =>
      obtain rfl := some.inj hpeer'
      rw [heq, hself]
    next hne =>
      rw [hothers conn' peer' hne hpeer', htracks conn' peer' hpeer']
      have hother : peer ≠ peer' := by
        rintro rfl
        exact hne (hfree conn' hpeer')
      ext p
      rw [Finset.mem_insert, Finset.mem_erase, Finset.mem_erase, List.mem_toFinset, List.mem_toFinset, hroster]
      constructor
      · rintro (rfl | ⟨hp, hin⟩)
        · exact ⟨hother, .inl rfl⟩
        · refine ⟨hp, ?_⟩
          by_cases hpeer : p = peer
          · exact .inl hpeer
          · exact .inr ⟨hin, fun hold => hne (halone p hold hpeer conn' peer' hpeer')⟩
      · rintro ⟨hp, rfl | ⟨hin, -⟩⟩
        · exact .inl rfl
        · exact .inr ⟨hp, hin⟩

/-- After a leave: every other connection knows of it. -/
theorem tracks_unregister {view view' : String → Finset ℤ} (h : s.Inverse) (htracks : s.Tracks view)
    (hpeer : s.peerOf conn = some peer)
    (hothers : ∀ conn' peer', conn' ≠ conn → s.peerOf conn' = some peer' →
      view' conn' = (view conn').erase peer) : (s.unregister conn peer).Tracks view' := by
  have hinverse := h.unregister hpeer
  intro conn' peer' hpeer'
  rw [peerOf_unregister] at hpeer'
  split at hpeer'
  · cases hpeer'
  next hne =>
    rw [hothers conn' peer' hne hpeer', htracks conn' peer' hpeer']
    ext p
    rw [Finset.mem_erase, Finset.mem_erase, Finset.mem_erase, List.mem_toFinset, List.mem_toFinset,
      mem_roster h, mem_roster hinverse]
    constructor
    · rintro ⟨hp, hp', conn'', hconn''⟩
      refine ⟨hp', conn'', ?_⟩
      rw [peerOf_unregister, if_neg, hconn'']
      rintro rfl
      exact hp (some.inj (hconn''.symm.trans hpeer))
    · rintro ⟨hp', conn'', hconn''⟩
      rw [peerOf_unregister] at hconn''
      split at hconn''
      · cases hconn''
      next hne' =>
        refine ⟨?_, hp', conn'', hconn''⟩
        rintro rfl
        exact hne' (h.unique hpeer hconn'')

theorem tracks_step (h : s.Inverse) {view : String → Finset ℤ} (htracks : s.Tracks view)
    {input : Input α} (hfree : s.Unclaimed input) :
    (s.step input).Tracks (fun conn => (heardBy conn (s.emits input)).foldl hears (view conn)) ↔
      s.Unrenamed input := by
  cases input with
  | allow sender target => exact iff_of_true htracks trivial
  | frame conn frame =>
    show (s.handle conn frame).2.Tracks (fun conn' =>
      (heardBy conn' (s.handle conn frame).1).foldl hears (view conn')) ↔ _
    obtain ⟨hsame, huntelling, hno⟩ | ⟨peer, hjoins, heq⟩ | ⟨peer, hno, hpeer, heq⟩ := handle_cases conn frame s
    · refine iff_of_true ?_ fun peer hjoins => absurd hjoins (hno peer)
      rw [hsame]
      intro conn' peer' hpeer'
      rw [← htracks conn' peer' hpeer']
      refine foldl_hears_untelling (fun told htold => ?_) _
      obtain ⟨e, he, rfl⟩ := List.mem_map.mp htold
      exact huntelling e (mem_filter.mp he).1
    · rw [heq]
      refine (tracks_register h htracks _ (hfree peer hjoins) ?_ fun conn' peer' hne hpeer' => ?_).trans ?_
      · -- the welcome is all that the connection itself is told
        have hnone : heardBy conn ((s.register conn peer (frame.capabilities.getD [])).announce
            (α := α) .peerJoined conn peer) = [] := by
          unfold heardBy
          rw [filter_eq_nil_iff.mpr, map_nil]
          intro e he
          obtain ⟨row, hrow, rfl⟩ := List.mem_map.mp he
          simpa using (mem_filter.mp hrow).2
        show foldl hears _ (heardBy conn (_ :: _)) = _
        rw [heardBy_cons_self, hnone, foldl_cons, foldl_nil, hears_welcome]
      · have hregistered : (s.register conn peer (frame.capabilities.getD [])).peerOf conn' = some peer' := by
          rw [peerOf_register, if_neg hne, hpeer']
        show foldl hears _ (heardBy conn' (_ :: _)) = _
        rw [heardBy_cons_of_ne hne, heardBy_announce _ hne hregistered, foldl_cons, foldl_nil, hears_peerJoined]
      · constructor
        · intro halone joined hjoined
          obtain rfl : peer = joined := some.inj (hjoins.2.symm.trans hjoined.2)
          exact halone
        · exact fun halone => halone peer hjoins
    · refine iff_of_true ?_ fun peer hjoins => absurd hjoins (hno peer)
      rw [heq]
      refine tracks_unregister h htracks hpeer fun conn' peer' hne hpeer' => ?_
      have hleft : (s.unregister conn peer).peerOf conn' = some peer' := by
        rw [peerOf_unregister, if_neg hne, hpeer']
      rw [heardBy_announce _ hne hleft, foldl_cons, foldl_nil, hears_peerLeft]

/-! ### Runs -/

/-- Where no connection joins as a peer of another one, every connection knows the roster after every
input, but for itself, if and only if none joins as another peer before others. -/
theorem rosters_iff (mode : PermissionMode) {inputs : List (Input α)}
    (hfree : Throughout (fun before input => (run mode before).Unclaimed input) inputs) :
    (∀ before after, inputs = before ++ after → (run mode before).Tracks (view mode before)) ↔
      Throughout (fun before input => (run mode before).Unrenamed input) inputs := by
  have hinverse (before after : List (Input α)) (heq : inputs = before ++ after) : (run mode before).Inverse :=
    inverse_run mode hfree before after heq
  have hstep (before after : List (Input α)) (input : Input α)
      (heq : inputs = before ++ input :: after)
      (htracks : (run mode before).Tracks (view mode before)) :
      (run mode (before ++ [input])).Tracks (view mode (before ++ [input])) ↔ (run mode before).Unrenamed input := by
    have hview : view mode (before ++ [input]) = fun conn =>
        (heardBy conn ((run mode before).emits input)).foldl hears (view mode before conn) := by
      funext conn
      exact view_concat mode before input conn
    rw [run_concat, hview]
    exact tracks_step (hinverse before _ heq) htracks (hfree before input after heq)
  constructor
  · intro htracks before input after heq
    refine (hstep before after input heq (htracks before _ heq)).mp ?_
    exact htracks (before ++ [input]) after (by rw [heq, append_assoc, singleton_append])
  · intro hunrenamed before
    induction before using reverseRecOn with
    | nil => exact fun _ _ => nofun
    | append_singleton before input ih =>
      intro after heq
      rw [append_assoc, singleton_append] at heq
      exact (hstep before after input heq (ih _ heq)).mpr (hunrenamed before input after heq)

/-! ### Fixed inputs -/

theorem forall_peerOf_iff {P : String → ℤ → Prop} : (∀ conn peer, s.peerOf conn = some peer → P conn peer) ↔
      ∀ row ∈ s.byConn.rows, P row.1 row.2.peer := by
  constructor
  · intro h row hrow
    exact h row.1 row.2.peer (by rw [peerOf, Table.get?_of_mem hrow]; rfl)
  · intro h conn peer hpeer
    obtain ⟨row, hrow, rfl⟩ := map_eq_some_iff.mp hpeer
    obtain rfl := Table.key_of_get? hrow
    exact h row (Table.mem_of_get? hrow)

theorem forall_joins_iff {frame : SignalingFrame α} {P : ℤ → Prop} : (∀ peer, Joins frame peer → P peer) ↔
      (frame.type = SignalingFrameKind.join.value → ∀ peer ∈ frame.peer, P peer) := by
  constructor
  · exact fun h htype peer hpeer => h peer ⟨htype, hpeer⟩
  · exact fun h peer hjoins => h hjoins.1 peer hjoins.2

instance : (input : Input α) → Decidable (s.Unclaimed input)
  | .frame conn frame =>
    decidable_of_iff (frame.type = SignalingFrameKind.join.value → ∀ peer ∈ frame.peer,
        ∀ row ∈ s.byConn.rows, row.2.peer = peer → row.1 = conn) <| by
      rw [← forall_joins_iff (P := fun peer => ∀ row ∈ s.byConn.rows, row.2.peer = peer → row.1 = conn)]
      refine forall₂_congr fun peer _ => ?_
      rw [← forall_peerOf_iff (P := fun conn' peer' => peer' = peer → conn' = conn)]
      constructor
      · exact fun h conn' hpeer => h conn' peer hpeer rfl
      · rintro h conn' peer' hpeer rfl
        exact h conn' hpeer
  | .allow _ _ => instDecidableTrue

instance : (input : Input α) → Decidable (s.Unrenamed input)
  | .frame conn frame =>
    decidable_of_iff (frame.type = SignalingFrameKind.join.value → ∀ peer ∈ frame.peer,
        ∀ old ∈ s.peerOf conn, old ≠ peer → ∀ row ∈ s.byConn.rows, row.1 = conn) <| by
      rw [← forall_joins_iff (P := fun peer => ∀ old ∈ s.peerOf conn, old ≠ peer → ∀ row ∈ s.byConn.rows, row.1 = conn)]
      refine forall₂_congr fun peer _ => forall₂_congr fun old _ => imp_congr_right fun _ => ?_
      exact (forall_peerOf_iff (P := fun conn' _ => conn' = conn)).symm
  | .allow _ _ => instDecidableTrue

def joinAs (conn : String) (peer : ℤ) : Input Unit :=
  .frame conn { type := SignalingFrameKind.join.value, peer := peer }

/-- A connection that is alone joins as another peer, and then another connection joins. -/
theorem rosters_tracked : (run .openMode [joinAs "A" 1, joinAs "A" 2, joinAs "B" 3]).roster = [2, 3] ∧
      ∀ before after, [joinAs "A" 1, joinAs "A" 2, joinAs "B" 3] = before ++ after →
        (run .openMode before).Tracks (view .openMode before) :=
  ⟨by decide +kernel, (rosters_iff .openMode (by decide +kernel)).mpr (by decide +kernel)⟩

/-- A connection joins as another peer, and the other one still knows the peer that it was. -/
theorem roster_untracked :
    let inputs := [joinAs "A" 1, joinAs "B" 2, joinAs "A" 3]
    Throughout (fun before input => (run .openMode before).Unclaimed input) inputs ∧
      (run .openMode inputs).roster = [2, 3] ∧ view .openMode inputs "B" = {1, 3} ∧
      ¬ (run .openMode inputs).Tracks (view .openMode inputs) := by
  intro inputs
  have hroster : (run .openMode inputs).roster = [2, 3] := by decide +kernel
  have hview : view .openMode inputs "B" = {1, 3} := by decide +kernel
  refine ⟨by decide +kernel, hroster, hview, fun htracks => ?_⟩
  have h := htracks "B" 2 (by decide +kernel)
  rw [hroster, hview] at h
  exact absurd h (by decide)

end RoomCore

end LazilyPy.Signaling
