import LazilyPy.Lossless.Observed
import LazilyPy.Text.Edited

/-!
# Replicas of distinct peers

Any number of replicas, each with a peer of its own. What a peer has deleted from a text is in operations of that peer,
so that a replica has counted all the deletions of its own peer.
-/

namespace LazilyPy.Lossless

open List Function

open Text (TextCrdt TextOp)
open Text.TextCrdt (Counts Deletions Edited)

def TreeOp.Deliberate (op : TreeOp) : Prop :=
  match op.kind with
  | .leafEdit _ _ ops => ∀ e ∈ ops, ∀ d, e.deleteId = some d → d.peer = op.id.peer
  | _ => True

namespace LosslessTreeCrdt

variable {s s' : LosslessTreeCrdt} {node : TreeOpId} {op : TreeOp}

/-! ## The texts of a replica -/

def Texts (s : LosslessTreeCrdt) (P : TextCrdt Char → Prop) : Prop :=
  ∀ r ∈ s.nodes.rows, ∀ kind t, r.body = .leaf kind t → P t

variable {P Q : TextCrdt Char → Prop}

theorem Texts.mono (h : s.Texts P) (hPQ : ∀ t, P t → Q t) : s.Texts Q :=
  fun r hr kind t hbody => hPQ t (h r hr kind t hbody)

theorem Texts.modify (h : s.Texts P) {f : NodeRecord → NodeRecord}
    (hf : ∀ r, s.get? node = some r → ∀ kind t, (f r).body = .leaf kind t → P t) : (s.modify node f).Texts P := by
  rw [LosslessTreeCrdt.modify]
  cases hr : s.get? node with
  | none => exact h
  | some r =>
    intro r' hr' kind t hbody
    obtain rfl | ⟨hr', -⟩ := Table.mem_put.mp hr'
    · exact hf r hr kind t hbody
    · exact h r' hr' kind t hbody

/-- The bodies of the nodes are the same, or are such. -/
theorem Texts.rebody (h : s.Texts P) {f : NodeRecord → NodeRecord}
    (hf : ∀ r, s.get? node = some r → (f r).body = r.body ∨ ∀ kind t, (f r).body = .leaf kind t → P t) :
    (s.modify node f).Texts P := by
  refine h.modify fun r hr kind t hbody => ?_
  obtain hsame | hP := hf r hr
  · exact h r (Table.mem_of_get? hr) kind t (hsame ▸ hbody)
  · exact hP kind t hbody

theorem Texts.addNode (h : s.Texts P) {r : NodeRecord} (hr : ∀ kind t, r.body = .leaf kind t → P t) :
    (s.addNode r).Texts P := by
  intro r' hr' kind t hbody
  obtain rfl | ⟨hr', -⟩ := Table.mem_put.mp hr'
  · exact hr kind t hbody
  · exact h r' hr' kind t hbody

theorem body_leaf_seed (hseed : ∀ peer chars, P (.seed peer chars)) {kind kind' : LeafKind} {peer : ℤ}
    {chars : List Char} {t : TextCrdt Char} (hbody : NodeBody.leaf kind (.seed peer chars) = .leaf kind' t) : P t := by
  obtain ⟨-, rfl⟩ := NodeBody.leaf.inj hbody
  exact hseed peer chars

/-- An operation seeds texts, or adds a delta to one. -/
theorem Texts.applyOp (h : s.Texts P) (hseed : ∀ peer chars, P (.seed peer chars))
    (hedit : ∀ node prev ops, op.kind = .leafEdit node prev ops → ∀ r kind t, s.get? node = some r →
      r.body = .leaf kind t → P (t.applyDelta ops).2) : (s.applyOp op).Texts P := by
  obtain ⟨id, opKind⟩ := op
  cases opKind with
  | createNode newNode parent sort seed =>
    dsimp only [LosslessTreeCrdt.applyOp]
    split
    · exact h
    · refine h.addNode fun kind t hbody => ?_
      cases seed with
      | element kind' => cases hbody
      | leaf kind' chars => exact body_leaf_seed hseed hbody
  | tombstone node => exact h.rebody fun r _ => .inl rfl
  | reorder node sort =>
    refine h.rebody fun r _ => .inl ?_
    split
    · rfl
    · rfl
  | leafEdit node prev ops =>
    refine h.rebody fun r hr => ?_
    cases hbody : r.body with
    | leaf kind t =>
      right
      intro kind' t' hbody'
      obtain ⟨-, rfl⟩ := NodeBody.leaf.inj hbody'
      exact hedit node prev ops rfl r kind t hr hbody
    | element kind => exact .inl hbody
  | splitLeaf node newNode sort atChar prev =>
    dsimp only [LosslessTreeCrdt.applyOp]
    rw [applySplit]
    split
    · exact h
    · split
      · exact h
      · dsimp only
        split
        · refine Texts.addNode (h.rebody fun r _ => .inr fun kind t hbody => ?_) fun kind t hbody => ?_
          · exact body_leaf_seed hseed hbody
          · exact body_leaf_seed hseed hbody
        · exact h.rebody fun r _ => .inr fun kind t hbody => body_leaf_seed hseed hbody
  | mergeLeaves left right prevLeft prevRight =>
    dsimp only [LosslessTreeCrdt.applyOp]
    rw [applyMerge]
    split
    · split
      · refine Texts.rebody (h.rebody fun r _ => .inr fun kind t hbody => ?_) fun r _ => .inl rfl
        exact body_leaf_seed hseed hbody
      · exact h
    · exact h

/-! ## The deletions of a peer -/

/-- The counter is not behind a deletion by the peer, and who has deleted has an operation in the log. -/
def Accounted (peer : ℤ) (log : List TreeOp) (t : TextCrdt Char) : Prop :=
  Counts peer t ∧ t.Deletions fun d => ∃ op ∈ log, op.id.peer = d.peer

variable {peer : ℤ} {log : List TreeOp} {t : TextCrdt Char}

theorem accounted_seed (owner : ℤ) (chars : List Char) : Accounted peer log (.seed owner chars) :=
  ⟨Text.TextCrdt.deletions_seed owner chars, Text.TextCrdt.deletions_seed owner chars⟩

theorem Accounted.concat (h : Accounted peer log t) (op : TreeOp) : Accounted peer (log ++ [op]) t := by
  refine ⟨h.1, fun e he d hd => ?_⟩
  obtain ⟨op', hop', hpeer⟩ := h.2 e he d hd
  exact ⟨op', mem_append_left _ hop', hpeer⟩

/-- A delta of another peer. -/
theorem Accounted.applyDelta (h : Accounted peer log t) {prev : TreeOpId} {ops : List (TextOp Char)}
    (hkind : op.kind = .leafEdit node prev ops) (hop : op.Deliberate) (hother : op.id.peer ≠ peer) :
    Accounted peer (log ++ [op]) (t.applyDelta ops).2 := by
  rw [TreeOp.Deliberate, hkind] at hop
  constructor
  · exact h.1.applyDelta fun e he d hd => (hop e he d hd).trans_ne hother
  · exact (h.concat op).2.applyDelta fun e he d hd =>
      ⟨op, mem_append_right _ (mem_singleton_self op), (hop e he d hd).symm⟩

structure Kept (s : LosslessTreeCrdt) : Prop where
  texts : s.Texts (Accounted s.peer s.log)
  deliberate : ∀ op ∈ s.log, op.Deliberate

theorem kept_new (peer : ℤ) : (new peer).Kept := by
  refine ⟨fun r hr kind t hbody => ?_, nofun⟩
  obtain rfl : r = rootRecord := mem_singleton.mp hr
  cases hbody

theorem kept_commitLocal (hdeliberate : ∀ op ∈ s.log, op.Deliberate) (hop : op.Deliberate)
    (htexts : s.Texts (Accounted s.peer (s.log ++ [op])))
    (hedit : ∀ node prev ops, op.kind = .leafEdit node prev ops → ∀ r kind t, s.get? node = some r →
      r.body = .leaf kind t → Accounted s.peer (s.log ++ [op]) (t.applyDelta ops).2) : (s.commitLocal op).Kept := by
  have happly : (s.applyOp op).Texts (Accounted s.peer (s.log ++ [op])) := htexts.applyOp accounted_seed hedit
  obtain ⟨nodes, heq⟩ := s.onlyNodes_applyOp op
  rw [heq] at happly
  rw [LosslessTreeCrdt.commitLocal, heq]
  refine ⟨happly, fun op' hop' => ?_⟩
  obtain hold | hlast := mem_append.mp hop'
  · exact hdeliberate op' hold
  · rwa [mem_singleton.mp hlast]

/-- What is minted, other than an edit. -/
theorem Kept.commitNext (h : s.Kept) {kind : TreeOpKind} (hkind : ∀ node prev ops, kind ≠ .leafEdit node prev ops) :
    (s.commitNext kind).Kept := by
  refine kept_commitLocal (s := { s with counter := s.counter + 1 }) h.deliberate ?_
    (fun r hr k t hbody => (h.texts r hr k t hbody).concat _) fun node prev ops heq => absurd heq (hkind node prev ops)
  rw [TreeOp.Deliberate]
  split
  · next heq => exact absurd heq (hkind _ _ _)
  · trivial

theorem edited_deleteRun {t t' : TextCrdt Char} (h : Edited t t') (start count : ℕ) :
    Edited t (deleteRun t' start count) := by
  induction count generalizing t' with
  | zero => exact h
  | succ count ih => exact ih (h.delete start)

theorem edited_edited (s : LosslessTreeCrdt) (t : TextCrdt Char) (start stop : ℕ) (insert : List Char) :
    Edited (t.fork s.peer) (s.edited t start stop insert) :=
  (edited_deleteRun (.refl _) start (stop - start)).insertStr start insert

/-- A text that is taken over has the same elements. -/
theorem Accounted.edited (h : Accounted s.peer s.log t) (start stop : ℕ) (insert : List Char)
    (hpeer : op.id.peer = s.peer) : Accounted s.peer (s.log ++ [op]) (s.edited t start stop insert) := by
  have hedited := s.edited_edited t start stop insert
  have hown : Accounted s.peer (s.log ++ [op]) (t.fork s.peer) := h.concat op
  refine ⟨hedited.counts hown.1, hedited.deletions hown.2 fun d hd => ?_⟩
  exact ⟨op, mem_append_right _ (mem_singleton_self op), hpeer.trans hd.symm⟩

/-- A local operation mints an operation; an edit has made its text before. -/
theorem Acts.kept (h : s.Acts s') (hs : s.Kept) : s'.Kept := by
  obtain ⟨kind, rfl, hkind⟩ | ⟨node, r, kind, t, start, stop, insert, hr, hbody, rfl⟩ := h.minted
  · exact hs.commitNext hkind
  have haccounted := hs.texts r (Table.mem_of_get? hr) kind t hbody
  let op : TreeOp := ⟨s.nextOpId, .leafEdit node r.textHead
    ((s.edited t start stop insert).deltaSince (t.fork s.peer).versionVector)⟩
  have hedited : Accounted s.peer (s.log ++ [op]) (s.edited t start stop insert) :=
    haccounted.edited start stop insert rfl
  let s₁ := s.modify node fun r => { r with body := .leaf kind (s.edited t start stop insert) }
  have htexts : s₁.Texts (Accounted s.peer (s.log ++ [op])) := by
    refine Texts.modify (fun r hr kind t hbody => (hs.texts r hr kind t hbody).concat op) ?_
    intro r' _ kind' t' hbody'
    obtain ⟨-, rfl⟩ := NodeBody.leaf.inj hbody'
    exact hedited
  have hget : s₁.get? node = some { r with body := .leaf kind (s.edited t start stop insert) } :=
    get?_modify_self (f := fun r => { r with body := .leaf kind (s.edited t start stop insert) }) (fun _ => rfl) hr
  obtain ⟨nodes, heq⟩ : s.OnlyNodes s₁ := onlyNodes_modify
  change (s₁.commitNext op.kind).Kept
  rw [heq] at htexts hget ⊢
  change (LosslessTreeCrdt.commitLocal { s with nodes, counter := s.counter + 1 } op).Kept
  refine kept_commitLocal hs.deliberate ?_ htexts ?_
  · exact fun e he d hd => (s.edited_edited t start stop insert).deleted_by he hd
  · intro node' prev ops hkind r' kind' t' hr' hbody'
    obtain ⟨rfl, rfl, rfl⟩ := TreeOpKind.leafEdit.inj hkind
    obtain rfl := Option.some.inj (hget.symm.trans hr')
    obtain ⟨-, rfl⟩ := NodeBody.leaf.inj hbody'
    -- the delta of a text changes nothing there
    have hsame := (s.edited t start stop insert).get?_applyDelta_self
      (Text.TextCrdt.unseen (t.fork s.peer).versionVector)
    exact ⟨hedited.1.of_get? hsame (Text.TextCrdt.le_advance _ _), hedited.2.of_get? hsame⟩

/-- A local operation puts one operation into the log. -/
theorem Acts.logs (h : s.Acts s') : s'.peer = s.peer ∧ s'.buffered = s.buffered ∧
    ∃ op, op.id = s.nextOpId ∧ s'.log = s.log ++ [op] := by
  obtain ⟨s₁, kind, hsame, rfl⟩ := h.commits
  obtain ⟨nodes, heq⟩ := hsame.commitNext kind
  rw [heq]
  exact ⟨rfl, rfl, _, rfl, rfl⟩

end LosslessTreeCrdt

/-! ## Runs -/

open LosslessTreeCrdt

section Runs

variable {ι : Type} [DecidableEq ι] {peerOf : ι → ℤ} {w w' : ι → LosslessTreeCrdt}

/-- What can happen: a local operation, an update with operations that another replica has applied, and a copy of a
replica under the peer of one that is new. -/
inductive Step (peerOf : ι → ℤ) (w : ι → LosslessTreeCrdt) : (ι → LosslessTreeCrdt) → Prop
  | act (i : ι) {s' : LosslessTreeCrdt} (h : (w i).Acts s') : Step peerOf w (Function.update w i s')
  | deliver (i j : ι) {ops : List TreeOp} (hops : ∀ op ∈ ops, op ∈ (w j).log) :
      Step peerOf w (Function.update w i ((w i).applyUpdate ops))
  | fork (i j : ι) (hnew : w i = .new (peerOf i)) : Step peerOf w (Function.update w i ((w j).fork (peerOf i)))

def Runs (peerOf : ι → ℤ) (w : ι → LosslessTreeCrdt) : Prop :=
  Relation.ReflTransGen (Step peerOf) (fun i => .new (peerOf i)) w

/-- Every replica has applied the operations of its own peer, and what waits has been applied somewhere. -/
structure Sound (peerOf : ι → ℤ) (w : ι → LosslessTreeCrdt) : Prop where
  reached : ∀ i, (w i).Reached
  peer : ∀ i, (w i).peer = peerOf i
  kept : ∀ i, (w i).Kept
  own : ∀ i j, ∀ op ∈ (w j).log, op.id.peer = peerOf i → op.id ∈ (w i).log.map TreeOp.id
  waiting : ∀ i, ∀ op ∈ (w i).buffered, ∃ j, op ∈ (w j).log

omit [DecidableEq ι] in
theorem sound_new (peerOf : ι → ℤ) : Sound peerOf fun i => .new (peerOf i) :=
  ⟨fun i => .new (peerOf i), fun _ => rfl, fun i => kept_new (peerOf i), fun _ _ => nofun, fun _ => nofun⟩

/-- One replica has changed, and has applied more. -/
theorem Sound.update (hinj : Injective peerOf) (h : Sound peerOf w) {i : ι} {s' : LosslessTreeCrdt}
    (hreached : s'.Reached) (hpeer : s'.peer = peerOf i) (hkept : s'.Kept) (hlog : ∀ op ∈ (w i).log, op ∈ s'.log)
    (hown : ∀ op ∈ s'.log, op.id.peer = peerOf i ∨ ∃ j, op ∈ (w j).log)
    (hwaiting : ∀ op ∈ s'.buffered, ∃ j, op ∈ (w j).log) : Sound peerOf (Function.update w i s') := by
  have hcases : ∀ {P : ι → LosslessTreeCrdt → Prop}, (∀ j, P j (w j)) → P i s' →
      ∀ j, P j (Function.update w i s' j) := by
    intro P hall hP j
    by_cases hj : j = i
    · subst hj
      rwa [update_self]
    · rw [update_of_ne hj]
      exact hall j
  have hlogs : ∀ j, ∀ op ∈ (w j).log, op ∈ (Function.update w i s' j).log :=
    hcases (P := fun j s => ∀ op ∈ (w j).log, op ∈ s.log) (fun _ _ hop => hop) hlog
  refine ⟨hcases h.reached hreached, hcases (P := fun j s => s.peer = peerOf j) h.peer hpeer, hcases h.kept hkept,
    fun k => ?_, ?_⟩
  · refine hcases (P := fun _ s => ∀ op ∈ s.log, op.id.peer = peerOf k →
      op.id ∈ (Function.update w i s' k).log.map TreeOp.id) (fun j op hop hk => ?_) fun op hop hk => ?_
    · obtain ⟨op', hop', hid⟩ := mem_map.mp (h.own k j op hop hk)
      exact mem_map.mpr ⟨op', hlogs k op' hop', hid⟩
    · obtain hi | ⟨j, hj⟩ := hown op hop
      · obtain rfl := hinj (hk.symm.trans hi)
        rw [update_self]
        exact mem_map_of_mem hop
      · obtain ⟨op', hop', hid⟩ := mem_map.mp (h.own k j op hj hk)
        exact mem_map.mpr ⟨op', hlogs k op' hop', hid⟩
  · refine hcases (P := fun _ s => ∀ op ∈ s.buffered, ∃ j, op ∈ (Function.update w i s' j).log)
      (fun j op hop => ?_) fun op hop => ?_
    · obtain ⟨k, hk⟩ := h.waiting j op hop
      exact ⟨k, hlogs k op hk⟩
    · obtain ⟨k, hk⟩ := hwaiting op hop
      exact ⟨k, hlogs k op hk⟩

theorem Sound.act (hinj : Injective peerOf) (h : Sound peerOf w) {i : ι} {s' : LosslessTreeCrdt}
    (hact : (w i).Acts s') : Sound peerOf (Function.update w i s') := by
  obtain ⟨hpeer, hbuffered, op, hid, hlog⟩ := hact.logs
  refine h.update hinj (hact.reached (h.reached i)) (hpeer.trans (h.peer i)) (hact.kept (h.kept i)) ?_ ?_ ?_
  · intro op' hop'
    rw [hlog]
    exact mem_append_left _ hop'
  · intro op' hop'
    rw [hlog] at hop'
    obtain hold | hlast := mem_append.mp hop'
    · exact .inr ⟨i, hold⟩
    · left
      rw [mem_singleton.mp hlast, hid]
      exact h.peer i
  · rw [hbuffered]
    exact h.waiting i

/-- What is applied from an update is of other peers, as a replica has its own operations. -/
theorem Sound.deliver (hinj : Injective peerOf) (h : Sound peerOf w) (i j : ι) {ops : List TreeOp}
    (hops : ∀ op ∈ ops, op ∈ (w j).log) : Sound peerOf (Function.update w i ((w i).applyUpdate ops)) := by
  let I : LosslessTreeCrdt → Prop := fun s =>
    s.peer = peerOf i ∧ s.Kept ∧ s.frontier = .observed (s.log.map TreeOp.id) ∧ (∀ op ∈ (w i).log, op ∈ s.log) ∧
      ∀ op ∈ s.log, ∃ j, op ∈ (w j).log
  have hwaits : ∀ s counter buffered, s.counter ≤ counter → (∀ op ∈ buffered, ∃ j, op ∈ (w j).log) → I s →
      I { s with counter, buffered } :=
    fun s _ _ _ _ ⟨hpeer, hkept, hfrontier, hlog, hfrom⟩ =>
      ⟨hpeer, ⟨hkept.texts, hkept.deliberate⟩, hfrontier, hlog, hfrom⟩
  have hcommit : ∀ s op, I s → (∃ j, op ∈ (w j).log) → s.frontier.contains op.id = false → I (s.commitLocal op) := by
    intro s op ⟨hpeer, hkept, hfrontier, hlog, hfrom⟩ ⟨j, hj⟩ hlacks
    have hdeliberate := (h.kept j).deliberate op hj
    have hpositive := (h.reached j).logged.positive op (mem_append_left _ hj)
    have hother : op.id.peer ≠ s.peer := by
      intro heq
      obtain ⟨op', hop', hid⟩ := mem_map.mp (h.own i j op hj (heq.trans hpeer))
      rw [hfrontier, ← Bool.not_eq_true, TreeVersionFrontier.mem_observed _ hpositive] at hlacks
      exact hlacks (mem_map.mpr ⟨op', hlog op' hop', hid⟩)
    have hkept' : (s.commitLocal op).Kept := by
      refine kept_commitLocal hkept.deliberate hdeliberate (hkept.texts.mono fun t ht => ht.concat op) ?_
      intro node prev ops hkind r kind t hr hbody
      exact (hkept.texts r (Table.mem_of_get? hr) kind t hbody).applyDelta hkind hdeliberate hother
    obtain ⟨nodes, heq⟩ := s.onlyNodes_applyOp op
    have hlocal : s.commitLocal op = ({ s with nodes } : LosslessTreeCrdt).record op :=
      congrArg (LosslessTreeCrdt.record · op) heq
    rw [hlocal] at hkept' ⊢
    refine ⟨hpeer, hkept', ?_, fun op' hop' => mem_append_left _ (hlog op' hop'), fun op' hop' => ?_⟩
    · have hids : (s.log ++ [op]).map TreeOp.id = s.log.map TreeOp.id ++ [op.id] := map_append
      change s.frontier.observe op.id = .observed ((s.log ++ [op]).map TreeOp.id)
      rw [hids, TreeVersionFrontier.observed, foldl_concat, hfrontier, TreeVersionFrontier.observed]
    · obtain hold | hlast := mem_append.mp hop'
      · exact hfrom op' hold
      · rw [mem_singleton.mp hlast]
        exact ⟨j, hj⟩
  have hstart : I (w i) := ⟨h.peer i, h.kept i, (h.reached i).logged.frontier, fun _ hop => hop, fun _ hop => ⟨i, hop⟩⟩
  obtain ⟨⟨hpeer, hkept, -, hlog, hfrom⟩, hwaiting⟩ :=
    applyUpdate_induct (J := fun _ op => ∃ j, op ∈ (w j).log) (fun _ _ _ _ hop => hop) hwaits hcommit hstart
      (h.waiting i) fun op hop => ⟨j, hops op hop⟩
  exact h.update hinj (.applyUpdate (h.reached i) (h.reached j) hops) hpeer hkept hlog
    (fun op hop => .inr (hfrom op hop)) hwaiting

/-- A copy under a new peer, which has deleted nothing yet. -/
theorem Sound.fork (hinj : Injective peerOf) (h : Sound peerOf w) (i j : ι) (hnew : w i = .new (peerOf i)) :
    Sound peerOf (Function.update w i ((w j).fork (peerOf i))) := by
  have hnone : ∀ op ∈ (w j).log, op.id.peer ≠ peerOf i := by
    intro op hop hpeer
    have hown := h.own i j op hop hpeer
    rw [hnew] at hown
    cases hown
  have hkept : ((w j).fork (peerOf i)).Kept := by
    refine ⟨fun r hr kind t hbody => ?_, (h.kept j).deliberate⟩
    obtain ⟨r₀, hr₀, rfl⟩ := mem_map.mp hr
    have hdeletions : t.Deletions fun d => ∃ op ∈ (w j).log, op.id.peer = d.peer := by
      cases hbody₀ : r₀.body with
      | leaf kind₀ t₀ =>
        rw [hbody₀] at hbody
        obtain ⟨-, rfl⟩ := NodeBody.leaf.inj hbody
        exact ((h.kept j).texts r₀ hr₀ kind₀ t₀ hbody₀).2
      | element kind₀ =>
        rw [hbody₀] at hbody
        rw [hbody₀] at hbody
        cases hbody
    refine ⟨fun e he d hd hpeer => ?_, hdeletions⟩
    obtain ⟨op, hop, hop'⟩ := hdeletions e he d hd
    exact absurd (hop'.trans hpeer) (hnone op hop)
  refine h.update hinj (.fork (h.reached j) (peerOf i)) rfl hkept ?_ (fun op hop => .inr ⟨j, hop⟩) (h.waiting j)
  rw [hnew]
  exact nofun

theorem Runs.sound (hinj : Injective peerOf) (h : Runs peerOf w) : Sound peerOf w := by
  induction h with
  | refl => exact sound_new peerOf
  | tail _ hstep ih =>
    cases hstep with
    | act i hact => exact ih.act hinj hact
    | deliver i j hops => exact ih.deliver hinj i j hops
    | fork i j hnew => exact ih.fork hinj i j hnew

end Runs

end LazilyPy.Lossless
