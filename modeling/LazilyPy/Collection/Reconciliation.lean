import LazilyPy.Lib.Increasing
import LazilyPy.Lib.Loop
import LazilyPy.Lib.Reposition
import LazilyPy.Lib.Table
import Mathlib.Data.List.GetD
import Mathlib.Data.List.Lex

/-!
# Keyed reconciliation

What takes one level of a keyed collection to another one, by the keys: removes, inserts, updates, and moves for the
keys that are not in a longest subsequence that is in order already.
-/

namespace LazilyPy.Collection

open List Option Function

/-! ## The longest increasing subsequence -/

section Lis

variable {κ ρ : Type} [LinearOrder ρ]

/-- One round of the binary search for the first of the `heads` that is not above `v`. -/
def bisectStep [Inhabited ρ] (heads : List ρ) (v : ρ) (bounds : ℕ × ℕ) : Option (ℕ × ℕ) :=
  if bounds.1 < bounds.2 then
    let mid := (bounds.1 + bounds.2) / 2
    some (if v < heads.getD mid default then (mid + 1, bounds.2) else (bounds.1, mid))
  else none

def bisect [Inhabited ρ] (heads : List ρ) (v : ρ) : ℕ :=
  (loop (bisectStep heads v) heads.length (0, heads.length)).1

/-- One round of the loop from the right, over `len_start` and `heads`. -/
def lisStep [Inhabited ρ] (v : ρ) (acc : List ℕ × List ρ) : List ℕ × List ρ :=
  let idx := bisect acc.2 v
  ((idx + 1) :: acc.1, if idx = acc.2.length then acc.2 ++ [v]
    else if acc.2.getD idx default < v then acc.2.set idx v
    else acc.2)

/-- The loop from the left, over the keys with what is in `len_start` for them. -/
def pick (p : κ → ρ) : List (ℕ × κ) → ℕ → Option ρ → List κ
  | [], _, _ => []
  | (len, k) :: rest, target, prev =>
    if target = 0 then []
    else if len = target ∧ prev.all (· < p k) then k :: pick p rest (target - 1) (some (p k))
    else pick p rest target prev

def lisBy [Inhabited ρ] (p : κ → ρ) (keys : List κ) : List κ :=
  let acc := (keys.map p).foldr lisStep ([], [])
  pick p (acc.1.zip keys) acc.2.length none

/-! ### The loop from the right -/

theorem bisect_spec [Inhabited ρ] {s heads : List ρ} (h : Heads s heads) (v : ρ) : bisect heads v ≤ heads.length ∧
    ∀ i w, heads[i]? = some w → (i < bisect heads v ↔ v < w) := by
  -- what is below the lower bound is above `v`, and nothing from the upper bound on is
  let Inv (b : ℕ × ℕ) : Prop := b.1 ≤ b.2 ∧ b.2 ≤ heads.length ∧
    ∀ i w, heads[i]? = some w → (i < b.1 → v < w) ∧ (b.2 ≤ i → w ≤ v)
  have hstep : ∀ a b, bisectStep heads v a = some b → Inv a → Inv b := by
    rintro ⟨lo, hi⟩ b hs ⟨hle, hlen, hinv⟩
    rw [bisectStep] at hs
    split at hs
    · next hlt =>
      obtain rfl := some.inj hs
      dsimp only at hle hlen hlt hinv ⊢
      have hmid : (lo + hi) / 2 < heads.length := by omega
      have hget := getElem?_eq_getElem hmid
      rw [getD_eq_getElem _ _ hmid]
      split
      · next hv =>
        refine ⟨by dsimp only; omega, hlen, fun i w hw => ⟨fun hi => ?_, (hinv i w hw).2⟩⟩
        exact hv.trans_le (h.le_of_le (by dsimp only at hi; omega) hw hget)
      · next hv =>
        refine ⟨by dsimp only; omega, by dsimp only; omega, fun i w hw => ⟨(hinv i w hw).1, fun hi => ?_⟩⟩
        exact (h.le_of_le hi hget hw).trans (not_lt.mp hv)
    · cases hs
  have hmeasure : ∀ a b, bisectStep heads v a = some b → b.2 - b.1 < a.2 - a.1 := by
    rintro ⟨lo, hi⟩ b hs
    rw [bisectStep] at hs
    split at hs
    · next hlt =>
      obtain rfl := some.inj hs
      dsimp only at hlt ⊢
      split <;> dsimp only <;> omega
    · cases hs
  have hstart : Inv (0, heads.length) := by
    refine ⟨Nat.zero_le _, le_rfl, fun i w hw => ⟨nofun, fun hi => ?_⟩⟩
    exact absurd (List.getElem?_eq_some_iff.mp hw).1 (not_lt.mpr hi)
  obtain ⟨hle, hlen, hinv⟩ := loop_invariant hstep heads.length hstart
  have hend : bisectStep heads v (loop (bisectStep heads v) heads.length (0, heads.length)) = none :=
    step_loop hmeasure (by simp)
  rw [bisect]
  generalize loop (bisectStep heads v) heads.length (0, heads.length) = b at hle hlen hinv hend
  have hnot : ¬ b.1 < b.2 := fun hlt => by
    rw [bisectStep, if_pos hlt] at hend
    cases hend
  refine ⟨hle.trans hlen, fun i w hw => ⟨(hinv i w hw).1, fun hv => ?_⟩⟩
  by_contra hi
  exact absurd hv (not_lt.mpr ((hinv i w hw).2 (by omega)))

/-- For each value, the lengths of what can follow it are those below its entry in `len_start`. -/
inductive LenStart : List ρ → List ℕ → Prop
  | nil : LenStart [] []
  | cons {s : List ρ} {lens : List ℕ} {v : ρ} {len : ℕ} (h : LenStart s lens)
      (hlen : ∀ L, Beyond (some v) s L ↔ L < len) : LenStart (v :: s) (len :: lens)

theorem lisStep_spec [Inhabited ρ] {s : List ρ} {acc : List ℕ × List ρ} (hlens : LenStart s acc.1)
    (hheads : Heads s acc.2) (v : ρ) :
    LenStart (v :: s) (lisStep v acc).1 ∧ Heads (v :: s) (lisStep v acc).2 := by
  obtain ⟨hle, hlo⟩ := bisect_spec hheads v
  refine ⟨.cons hlens fun L => (hheads.beyond_iff hlo hle).trans Nat.lt_succ_iff.symm, ?_⟩
  dsimp only [lisStep]
  split
  · next heq =>
    refine hheads.cons hlo hle ?_ fun i hi => ?_
    · rw [heq, getElem?_concat_length]
    · rw [heq] at hi
      rw [getElem?_append]
      split
      · rfl
      · next hge => rw [getElem?_eq_none (by simpa using by omega), getElem?_eq_none (by omega)]
  · next hne =>
    have hlt := lt_of_le_of_ne hle hne
    have hget := getElem?_eq_getElem hlt
    split
    · refine hheads.cons hlo hle ?_ fun i hi => getElem?_set_ne (Ne.symm hi)
      rw [getElem?_set_self hlt]
    · next hge =>
      refine hheads.cons hlo hle ?_ fun i _ => rfl
      rw [getD_eq_getElem _ _ hlt] at hge
      have hnot : ¬ v < acc.2[bisect acc.2 v] := fun h => lt_irrefl _ ((hlo _ _ hget).mpr h)
      rw [hget, le_antisymm (not_lt.mp hnot) (not_lt.mp hge)]

theorem lenStart_foldr [Inhabited ρ] (s : List ρ) :
    LenStart s (s.foldr lisStep ([], [])).1 ∧ Heads s (s.foldr lisStep ([], [])).2 := by
  induction s with
  | nil => exact ⟨.nil, .nil⟩
  | cons v s ih => exact lisStep_spec ih.1 ih.2 v

/-! ### The loop from the left -/

/-- Where the longest increasing subsequence above the last pick has the length that is still missing, one of this
length is picked. -/
theorem pick_spec {p : κ → ρ} {keys : List κ} {lens : List ℕ} (h : LenStart (keys.map p) lens) {target : ℕ}
    {prev : Option ρ} (hreach : ∀ L, Beyond prev (keys.map p) L ↔ L ≤ target) :
    (pick p (lens.zip keys) target prev).Sublist keys ∧ ((pick p (lens.zip keys) target prev).map p).Pairwise (· < ·) ∧
      (∀ a ∈ prev, ∀ k ∈ pick p (lens.zip keys) target prev, a < p k) ∧
      (pick p (lens.zip keys) target prev).length = target := by
  induction keys generalizing lens target prev with
  | nil =>
    obtain ⟨t, hsub, -, -, rfl⟩ := (hreach target).mpr le_rfl
    obtain rfl := sublist_nil.mp hsub
    cases h
    exact ⟨Sublist.refl _, Pairwise.nil, fun _ _ => nofun, rfl⟩
  | cons k keys ih =>
    cases h with
    | @cons s lens v len h hlen =>
      rw [zip_cons_cons, pick]
      split
      · next hzero => exact ⟨nil_sublist _, Pairwise.nil, fun _ _ => nofun, hzero.symm⟩
      · next hpos =>
        split
        · next htake =>
          obtain ⟨rfl, hprev⟩ := htake
          have hprev : ∀ a ∈ prev, a < p k := by simpa [Option.all_eq_true] using hprev
          have hreach : ∀ L, Beyond (some (p k)) (keys.map p) L ↔ L ≤ len - 1 := fun L =>
            (hlen L).trans (Nat.lt_iff_le_pred (Nat.pos_of_ne_zero hpos))
          obtain ⟨hsub, hinc, habove, hlength⟩ := ih h hreach
          have hk : ∀ k' ∈ pick p (lens.zip keys) (len - 1) (some (p k)), p k < p k' := habove (p k) rfl
          refine ⟨hsub.cons_cons k, ?_, fun a ha k' hk' => ?_, ?_⟩
          · rw [map_cons, pairwise_cons]
            refine ⟨fun w hw => ?_, hinc⟩
            obtain ⟨k', hk', rfl⟩ := List.mem_map.mp hw
            exact hk k' hk'
          · obtain rfl | hk' := mem_cons.mp hk'
            · exact hprev a ha
            · exact (hprev a ha).trans (hk k' hk')
          · rw [length_cons, hlength]
            omega
        · next hskip =>
          have hrest : ∀ L, Beyond prev (keys.map p) L ↔ L ≤ target := fun L =>
            beyond_of_skip hlen hreach (by simpa [Option.all_eq_true] using hskip)
          obtain ⟨hsub, hinc, habove, hlength⟩ := ih h hrest
          exact ⟨hsub.cons k, hinc, habove, hlength⟩

/-- `lis_by` gives an increasing subsequence, and none is longer. -/
theorem lisBy_spec [Inhabited ρ] (p : κ → ρ) (keys : List κ) :
    (lisBy p keys).Sublist keys ∧ ((lisBy p keys).map p).Pairwise (· < ·) ∧
      ∀ l : List κ, l.Sublist keys → (l.map p).Pairwise (· < ·) → l.length ≤ (lisBy p keys).length := by
  obtain ⟨hlens, hheads⟩ := lenStart_foldr (keys.map p)
  obtain ⟨hsub, hinc, -, hlength⟩ := pick_spec hlens fun _ => hheads.longest_iff
  refine ⟨hsub, hinc, fun l hl hlinc => ?_⟩
  have hbeyond : Beyond none (keys.map p) l.length := ⟨l.map p, hl.map p, hlinc, nofun, length_map p⟩
  exact (hheads.longest_iff.mp hbeyond).trans_eq hlength.symm

/-! ### The first one of the longest -/

theorem map_succ_lt {l l' : List ℕ} (h : l < l') : l.map Nat.succ < l'.map Nat.succ := by
  induction l generalizing l' with
  | nil =>
    cases l' with
    | nil => exact absurd h (lt_irrefl _)
    | cons b l' => exact nil_lt_cons _ _
  | cons a l ih =>
    cases l' with
    | nil => exact absurd h (not_lt_nil _)
    | cons b l' =>
      obtain hlt | ⟨rfl, hlt⟩ := cons_lt_cons_iff.mp h
      · exact cons_lt_cons_iff.mpr (.inl (Nat.succ_lt_succ hlt))
      · exact cons_lt_cons_iff.mpr (.inr ⟨rfl, ih hlt⟩)

/-- Behind a first key all indices are one more. -/
theorem map_idxOf_cons [DecidableEq κ] {k : κ} {l : List κ} (h : k ∉ l) (keys : List κ) :
    l.map (k :: keys).idxOf = (l.map keys.idxOf).map Nat.succ := by
  rw [List.map_map]
  refine map_congr_left fun k' hk' => idxOf_cons_ne keys ?_
  rintro rfl
  exact h hk'

/-- Of the subsequences of the missing length, the one that is picked has the first indices. -/
theorem pick_le [DecidableEq κ] {p : κ → ρ} {keys : List κ} {lens : List ℕ} (h : LenStart (keys.map p) lens)
    (hkeys : keys.Nodup) {target : ℕ} {prev : Option ρ} (hreach : ∀ L, Beyond prev (keys.map p) L ↔ L ≤ target)
    {l : List κ} (hl : l.Sublist keys) (hinc : (l.map p).Pairwise (· < ·)) (habove : ∀ a ∈ prev, ∀ k ∈ l, a < p k)
    (hlength : l.length = target) : (pick p (lens.zip keys) target prev).map keys.idxOf ≤ l.map keys.idxOf := by
  induction keys generalizing lens target prev l with
  | nil =>
    cases h
    exact le_of_eq (by rw [sublist_nil.mp hl]; rfl)
  | cons k keys ih =>
    cases h with
    | @cons s lens v len h hlen =>
      obtain ⟨hk, hkeys⟩ := nodup_cons.mp hkeys
      -- behind `k` the indices are compared as they are in the rest
      have hshift : ∀ {l l' : List κ}, l.Sublist keys → l'.Sublist keys → l.map keys.idxOf ≤ l'.map keys.idxOf →
          l.map (k :: keys).idxOf ≤ l'.map (k :: keys).idxOf := by
        intro l l' hl hl' hle
        rw [map_idxOf_cons (fun hmem => hk (hl.subset hmem)), map_idxOf_cons (fun hmem => hk (hl'.subset hmem))]
        obtain heq | hlt := hle.eq_or_lt
        · rw [heq]
        · exact (map_succ_lt hlt).le
      rw [zip_cons_cons, pick]
      split
      · next hzero =>
        obtain rfl := length_eq_zero_iff.mp (hlength.trans hzero)
        exact le_rfl
      · next hpos =>
        split
        · next htake =>
          obtain ⟨rfl, hprev⟩ := htake
          have hprev : ∀ a ∈ prev, a < p k := by simpa [Option.all_eq_true] using hprev
          have hrest : ∀ L, Beyond (some (p k)) (keys.map p) L ↔ L ≤ len - 1 := fun L =>
            (hlen L).trans (Nat.lt_iff_le_pred (Nat.pos_of_ne_zero hpos))
          rw [map_cons, idxOf_cons_self]
          cases hl with
          | cons _ hl =>
            cases l with
            | nil => exact absurd hlength.symm hpos
            | cons k' l =>
              have hne : k ≠ k' := by
                rintro rfl
                exact hk (hl.subset mem_cons_self)
              rw [map_cons, idxOf_cons_ne _ hne]
              exact (cons_lt_cons_iff.mpr (.inl (Nat.succ_pos _))).le
          | @cons_cons l _ _ hl =>
            rw [map_cons, pairwise_cons] at hinc
            have habove : ∀ a ∈ some (p k), ∀ k' ∈ l, a < p k' := by
              intro a ha k' hk'
              obtain rfl := some.inj ha
              exact hinc.1 _ (List.mem_map_of_mem hk')
            have hlength : l.length = len - 1 := by
              rw [← hlength, length_cons, Nat.add_sub_cancel]
            have hle := hshift (pick_spec h hrest).1 hl (ih h hkeys hrest hl hinc.2 habove hlength)
            rw [map_cons, idxOf_cons_self]
            exact cons_le_cons 0 hle
        · next hskip =>
          have hskip : ¬ (len = target ∧ ∀ a ∈ prev, a < p k) := by simpa [Option.all_eq_true] using hskip
          have hrest : ∀ L, Beyond prev (keys.map p) L ↔ L ≤ target := fun L => beyond_of_skip hlen hreach hskip
          cases hl with
          | cons _ hl => exact hshift (pick_spec h hrest).1 hl (ih h hkeys hrest hl hinc habove hlength)
          | @cons_cons l _ _ hl =>
            rw [map_cons, pairwise_cons] at hinc
            have hbeyond : Beyond (some (p k)) (keys.map p) l.length := by
              refine ⟨l.map p, hl.map p, hinc.2, fun a ha w hw => ?_, length_map p⟩
              obtain rfl := some.inj ha
              exact hinc.1 w hw
            have hshort := short_of_skip hlen hreach hskip (fun a ha => habove a ha k mem_cons_self) hbeyond
            rw [length_cons] at hlength
            exact absurd hshort (by omega)

/-- `lis_by` gives the longest increasing subsequence, and of several ones that with the first indices. -/
theorem lisBy_optimal [Inhabited ρ] [DecidableEq κ] (p : κ → ρ) {keys : List κ} (hkeys : keys.Nodup) :
    (lisBy p keys).Sublist keys ∧ ((lisBy p keys).map p).Pairwise (· < ·) ∧
      ∀ l : List κ, l.Sublist keys → (l.map p).Pairwise (· < ·) → l.length ≤ (lisBy p keys).length ∧
        (l.length = (lisBy p keys).length → (lisBy p keys).map keys.idxOf ≤ l.map keys.idxOf) := by
  obtain ⟨hsub, hinc, hmax⟩ := lisBy_spec p keys
  refine ⟨hsub, hinc, fun l hl hlinc => ⟨hmax l hl hlinc, fun hlength => ?_⟩⟩
  obtain ⟨hlens, hheads⟩ := lenStart_foldr (keys.map p)
  have hreach : ∀ L, Beyond none (keys.map p) L ↔ L ≤ ((keys.map p).foldr lisStep ([], [])).2.length :=
    fun _ => hheads.longest_iff
  have hpick := (pick_spec hlens hreach).2.2.2
  exact pick_le hlens hkeys hreach hl hlinc (fun _ => nofun) (hlength.trans hpick)

/-- The ranks repeat, and are below zero. -/
theorem lisBy_optimal_repeated : (lisBy (fun k : ℕ => ([0, -2, 0, -2, 3, 3] : List ℤ).getD k 0) [0, 1, 2, 3, 4, 5]).map
    [0, 1, 2, 3, 4, 5].idxOf ≤ [1, 2, 5].map [0, 1, 2, 3, 4, 5].idxOf :=
  ((lisBy_optimal _ (by decide)).2.2 [1, 2, 5] (by decide) (by decide)).2 (by decide)

end Lis

/-! ## The operations between two levels -/

structure Level (κ ν : Type) where
  order : List κ
  values : Table (Prod.fst (α := κ) (β := ν))

inductive ReconcileKind where
  | insert
  | remove
  | update
  | move
  deriving DecidableEq

/-- One operation. A move names the key that it comes behind, or none if it comes first. -/
structure ReconcileOp (κ ν : Type) where
  kind : ReconcileKind
  key : κ
  value : Option ν := none
  after : Option κ := none
  deriving DecidableEq

variable {κ ν : Type} [DecidableEq κ]

def Level.valueOf (l : Level κ ν) (key : κ) : Option ν :=
  (l.values.get? key).map Prod.snd

def commonKeys (prior target : List κ) : List κ :=
  target.filter (· ∈ prior)

/-- `{k: i for i, k in enumerate(prior)}`. -/
def priorIndex (prior : List κ) : κ → ℕ :=
  prior.zipIdx.foldl (fun p ki => update p ki.1 ki.2) fun _ => 0

def stableKeys (prior target : List κ) : List κ :=
  lisBy (priorIndex prior) (commonKeys prior target)

def movedKeys (prior target : List κ) : List κ :=
  (commonKeys prior target).filter (· ∉ stableKeys prior target)

/-- The loop over the target order that ends at the key, with the last key it has come by that stays or moves. -/
def anchorLoop (kept : κ → Bool) (key : κ) : List κ → Option κ → Option κ
  | [], anchor => anchor
  | tk :: rest, anchor =>
    if tk = key then anchor else anchorLoop kept key rest (if kept tk then some tk else anchor)

def reconcileOps [DecidableEq ν] (prior target : Level κ ν) : List (ReconcileOp κ ν) :=
  let commons := commonKeys prior.order target.order
  let stable := stableKeys prior.order target.order
  let moved := movedKeys prior.order target.order
  (prior.order.filter (· ∉ target.order)).map (fun k => { kind := .remove, key := k }) ++
    (target.order.filter (· ∉ prior.order)).map
      (fun k => { kind := .insert, key := k, value := target.valueOf k }) ++
    (commons.filter fun k => prior.valueOf k ≠ target.valueOf k).map
      (fun k => { kind := .update, key := k, value := target.valueOf k }) ++
    moved.map fun k =>
      { kind := .move, key := k, after := anchorLoop (fun tk => tk ∈ stable ∨ tk ∈ moved) k target.order none }

def ofKind (kind : ReconcileKind) (ops : List (ReconcileOp κ ν)) : List (ReconcileOp κ ν) :=
  ops.filter (·.kind = kind)

def replay (ops : List (ReconcileOp κ ν)) (l : List κ) : List κ :=
  ops.foldl (fun l op => placeAfter op.key op.after l) l

/-! ### Indices in the prior order -/

variable {prior target : List κ}

theorem priorIndex_eq (h : prior.Nodup) {k : κ} (hk : k ∈ prior) : priorIndex prior k = prior.idxOf k := by
  rw [priorIndex]
  induction prior using reverseRecOn with
  | nil => cases hk
  | append_singleton l a ih =>
    obtain ⟨hl, -, hdisj⟩ := nodup_append.mp h
    rw [zipIdx_append, foldl_append]
    by_cases hka : k = a
    · subst hka
      have hnot : k ∉ l := fun hin => hdisj k hin k (mem_singleton_self k) rfl
      rw [idxOf_split hnot]
      simp
    · have hin : k ∈ l := by simpa [hka] using hk
      rw [idxOf_append_of_mem hin, ← ih hl hin]
      simp [update_of_ne hka]

/-- Keys that come in the prior order, and increase there, are in the same order. -/
theorem pairwise_idxOf (h : prior.Nodup) : prior.Pairwise fun a b => prior.idxOf a < prior.idxOf b := by
  rw [pairwise_iff_getElem]
  intro i j hi hj hlt
  rwa [Nodup.idxOf_getElem h, Nodup.idxOf_getElem h]

/-- A list of common keys that increases in the prior order is what the prior order has of it. -/
theorem filter_prior {l : List κ} (hprior : prior.Nodup) (hmem : ∀ k ∈ l, k ∈ prior)
    (hinc : (l.map (priorIndex prior)).Pairwise (· < ·)) : prior.filter (· ∈ l) = l := by
  have hidx : l.Pairwise fun a b => prior.idxOf a < prior.idxOf b := by
    refine (pairwise_map.mp hinc).imp_of_mem fun ha hb hlt => ?_
    rwa [priorIndex_eq hprior (hmem _ ha), priorIndex_eq hprior (hmem _ hb)] at hlt
  have hnodup : l.Nodup := hidx.imp fun hlt heq => by
    rw [heq] at hlt
    exact lt_irrefl _ hlt
  have hperm : (prior.filter (· ∈ l)).Perm l := by
    refine (perm_ext_iff_of_nodup (hprior.filter _) hnodup).mpr fun k => ?_
    simpa using hmem k
  exact hperm.eq_of_pairwise (fun a b _ _ hab hba => absurd hab hba.asymm) ((pairwise_idxOf hprior).filter _) hidx

theorem filter_of_sublist {l m : List κ} (hm : m.Nodup) (hsub : l.Sublist m) : m.filter (· ∈ l) = l := by
  have hl : (l.filter (· ∈ l)).Sublist (m.filter (· ∈ l)) := hsub.filter _
  rw [filter_eq_self.mpr fun a ha => by simpa using ha] at hl
  have hperm : (m.filter (· ∈ l)).Perm l := by
    refine (perm_ext_iff_of_nodup (hm.filter _) (hm.sublist hsub)).mpr fun k => ?_
    simpa using fun hk => hsub.subset hk
  exact (hl.eq_of_length hperm.length_eq.symm).symm

theorem mem_commonKeys {k : κ} : k ∈ commonKeys prior target ↔ k ∈ target ∧ k ∈ prior := by
  simp [commonKeys]

theorem stableKeys_sublist : (stableKeys prior target).Sublist (commonKeys prior target) :=
  (lisBy_spec _ _).1

theorem mem_prior_of_mem_stableKeys {k : κ} (hk : k ∈ stableKeys prior target) : k ∈ prior :=
  (mem_commonKeys.mp (stableKeys_sublist.subset hk)).2

/-- The keys that stay are in the target order, and in the prior order. -/
theorem filter_stableKeys (hprior : prior.Nodup) (htarget : target.Nodup) :
    (commonKeys prior target).filter (· ∈ stableKeys prior target) = stableKeys prior target ∧
      prior.filter (· ∈ stableKeys prior target) = stableKeys prior target :=
  ⟨filter_of_sublist (htarget.filter _) stableKeys_sublist,
    filter_prior hprior (fun _ => mem_prior_of_mem_stableKeys) (lisBy_spec _ _).2.1⟩

/-- The common keys, in the prior order and in the target order. -/
theorem perm_common (hprior : prior.Nodup) (htarget : target.Nodup) :
    (prior.filter (· ∈ target)).Perm (commonKeys prior target) := by
  refine (perm_ext_iff_of_nodup (hprior.filter _) (htarget.filter _)).mpr fun k => ?_
  simp [and_comm]

/-! ### The moves -/

/-- The anchor is what comes before the key among the keys that stay or move. -/
theorem anchorLoop_eq {kept : κ → Bool} {k : κ} (hk : kept k = true) (l : List κ) (anchor : Option κ) :
    anchorLoop kept k l anchor = (predecessor (l.filter kept) k).or anchor := by
  induction l generalizing anchor with
  | nil => rfl
  | cons tk l ih =>
    rw [anchorLoop]
    by_cases htk : tk = k
    · subst htk
      rw [if_pos rfl, filter_cons_of_pos hk]
      simp [predecessor]
    · rw [if_neg htk, ih]
      by_cases hkept : kept tk = true
      · rw [if_pos hkept, filter_cons_of_pos hkept, predecessor, predecessor,
          takeWhile_cons_of_pos (by simpa using htk), getLast?_cons]
        cases ((l.filter kept).takeWhile (· ≠ k)).getLast? <;> rfl
      · rw [if_neg hkept, filter_cons_of_neg hkept]

theorem kept_eq : (target.filter fun tk => tk ∈ stableKeys prior target ∨ tk ∈ movedKeys prior target) =
    commonKeys prior target := by
  refine filter_congr fun k hk => ?_
  have hsub : (stableKeys prior target).Sublist (commonKeys prior target) := stableKeys_sublist
  by_cases hstable : k ∈ stableKeys prior target
  · simp [hstable, mem_prior_of_mem_stableKeys hstable]
  · simp [hstable, movedKeys, mem_commonKeys, hk]

/-- Carried out in the order that they are emitted in, the moves reach the target order. -/
theorem replay_moves (hprior : prior.Nodup) (htarget : target.Nodup) :
    (movedKeys prior target).foldl (fun l k => placeAfter k (predecessor (commonKeys prior target) k) l)
      (prior.filter (· ∈ target)) = commonKeys prior target := by
  obtain ⟨hstable, hstable'⟩ := filter_stableKeys hprior htarget
  have hmoved : movedKeys prior target =
      (commonKeys prior target).filter fun k => !decide (k ∈ stableKeys prior target) :=
    filter_congr fun k _ => decide_not
  have hstart : (prior.filter (· ∈ target)).filter (· ∈ stableKeys prior target) = stableKeys prior target := by
    rw [List.filter_filter]
    conv_rhs => rw [← hstable']
    refine filter_congr fun k _ => ?_
    by_cases hk : k ∈ stableKeys prior target
    · simp [hk, (mem_commonKeys.mp (stableKeys_sublist.subset hk)).1]
    · simp [hk]
  rw [hmoved]
  refine foldl_placeAfter (htarget.filter _) (nil_append _).symm (perm_common hprior htarget) ?_
  simp only [not_mem_nil, false_or, decide_eq_true_eq]
  rw [hstart, hstable]

/-- Between the two orders, the keys that have not been moved are no more than those that stay. -/
theorem length_movedKeys_le (hprior : prior.Nodup) (htarget : target.Nodup) {n : ℕ}
    (h : Repositions n (prior.filter (· ∈ target)) (commonKeys prior target)) :
    (movedKeys prior target).length ≤ n := by
  obtain ⟨c, hsub, hsub', hlen⟩ := h.common (hprior.filter _)
  have hcprior : c.Sublist prior := hsub.trans filter_sublist
  have hinc : (c.map (priorIndex prior)).Pairwise (· < ·) := by
    rw [pairwise_map]
    refine ((pairwise_idxOf hprior).sublist hcprior).imp_of_mem fun ha hb hlt => ?_
    rwa [priorIndex_eq hprior (hcprior.subset ha), priorIndex_eq hprior (hcprior.subset hb)]
  have hle : c.length ≤ (stableKeys prior target).length := (lisBy_spec _ _).2.2 c hsub' hinc
  have hperm := (perm_common hprior htarget).length_eq
  have hparts : (stableKeys prior target).length + (movedKeys prior target).length =
      (commonKeys prior target).length := by
    have hsplit := length_eq_length_filter_add (l := commonKeys prior target)
      (fun k => decide (k ∈ stableKeys prior target))
    rw [(filter_stableKeys hprior htarget).1] at hsplit
    rw [hsplit, movedKeys]
    congr 2
    exact filter_congr fun k _ => decide_not
  omega

/-! ### The script -/

/-- The script removes, inserts and updates each key that it has to, once, with its target value, its moves take the
common keys from the prior order to the target order, and no fewer moves do. -/
structure Reconciles (prior target : Level κ ν) (ops : List (ReconcileOp κ ν)) : Prop where
  removes : ((ofKind .remove ops).map ReconcileOp.key).Nodup ∧
    ∀ k, k ∈ (ofKind .remove ops).map ReconcileOp.key ↔ k ∈ prior.order ∧ k ∉ target.order
  inserts : ((ofKind .insert ops).map ReconcileOp.key).Nodup ∧
    ∀ k, k ∈ (ofKind .insert ops).map ReconcileOp.key ↔ k ∈ target.order ∧ k ∉ prior.order
  updates : ((ofKind .update ops).map ReconcileOp.key).Nodup ∧ ∀ k, k ∈ (ofKind .update ops).map ReconcileOp.key ↔
      (k ∈ prior.order ∧ k ∈ target.order) ∧ prior.valueOf k ≠ target.valueOf k
  values : ∀ op ∈ ops, op.kind = .insert ∨ op.kind = .update → op.value = target.valueOf op.key
  moves : replay (ofKind .move ops) (prior.order.filter (· ∈ target.order)) = target.order.filter (· ∈ prior.order)
  fewest : ∀ n, Repositions n (prior.order.filter (· ∈ target.order)) (target.order.filter (· ∈ prior.order)) →
    (ofKind .move ops).length ≤ n

section Script

omit [DecidableEq κ] in
theorem map_key {f : κ → ReconcileOp κ ν} (hf : ∀ k, (f k).key = k) (l : List κ) :
    (l.map f).map ReconcileOp.key = l := by
  rw [List.map_map]
  exact (map_congr_left fun k _ => hf k).trans (List.map_id' l)

variable [DecidableEq ν] {prior target : Level κ ν}

/-- The parts of the script. The anchor of a move is what comes before it in the target order of the common keys. -/
theorem ofKind_reconcileOps (kind : ReconcileKind) : ofKind kind (reconcileOps prior target) = match kind with
    | .remove => (prior.order.filter (· ∉ target.order)).map fun k => { kind := .remove, key := k }
    | .insert => (target.order.filter (· ∉ prior.order)).map
        fun k => { kind := .insert, key := k, value := target.valueOf k }
    | .update => ((commonKeys prior.order target.order).filter fun k => prior.valueOf k ≠ target.valueOf k).map
        fun k => { kind := .update, key := k, value := target.valueOf k }
    | .move => (movedKeys prior.order target.order).map fun k =>
        { kind := .move, key := k, after := predecessor (commonKeys prior.order target.order) k } := by
  rw [ofKind, reconcileOps, filter_append, filter_append, filter_append]
  cases kind with
  | insert => simp [List.filter_map, comp_def]
  | remove => simp [List.filter_map, comp_def]
  | update => simp [List.filter_map, comp_def]
  | move =>
    have hanchor : ∀ k ∈ movedKeys prior.order target.order, anchorLoop
        (fun tk => tk ∈ stableKeys prior.order target.order ∨ tk ∈ movedKeys prior.order target.order) k
        target.order none = predecessor (commonKeys prior.order target.order) k := by
      intro k hk
      refine (anchorLoop_eq (by simp [hk]) _ _).trans ?_
      rw [kept_eq, or_none]
    simpa [List.filter_map, comp_def] using hanchor

theorem value_reconcileOps {op : ReconcileOp κ ν} (hop : op ∈ reconcileOps prior target)
    (hkind : op.kind = .insert ∨ op.kind = .update) : op.value = target.valueOf op.key := by
  simp only [reconcileOps, mem_append, List.mem_map] at hop
  obtain ((⟨k, -, rfl⟩ | ⟨k, -, rfl⟩) | ⟨k, -, rfl⟩) | ⟨k, -, rfl⟩ := hop
  · simp at hkind
  · rfl
  · rfl
  · simp at hkind

theorem reconcile_ops_exact (hprior : prior.order.Nodup) (htarget : target.order.Nodup) :
    Reconciles prior target (reconcileOps prior target) where
  removes := by
    rw [ofKind_reconcileOps, map_key fun _ => rfl]
    exact ⟨hprior.filter _, fun k => by simp⟩
  inserts := by
    rw [ofKind_reconcileOps, map_key fun _ => rfl]
    exact ⟨htarget.filter _, fun k => by simp⟩
  updates := by
    rw [ofKind_reconcileOps, map_key fun _ => rfl]
    exact ⟨(htarget.filter _).filter _, fun k => by simp [mem_commonKeys, and_comm]⟩
  values := fun _ => value_reconcileOps
  moves := by
    rw [ofKind_reconcileOps, replay, foldl_map]
    exact replay_moves hprior htarget
  fewest := by
    intro n h
    rw [ofKind_reconcileOps, length_map]
    exact length_movedKeys_le hprior htarget h

def levelOf (order : List ℕ) : Level ℕ ℕ :=
  ⟨order, (Table.empty _).putAll (order.map fun k => (k, k))⟩

theorem reconcile_ops_exact_rotation : Reconciles (levelOf [1, 2, 3, 4]) (levelOf [4, 1, 3, 5])
    (reconcileOps (levelOf [1, 2, 3, 4]) (levelOf [4, 1, 3, 5])) :=
  reconcile_ops_exact (by decide) (by decide)

end Script

end LazilyPy.Collection
