import LazilyPy.Reactive.Machine

/-!
# Playing sessions

An executable form of `Run`: a client that issues one call after another, with every
statement checked before it runs.
-/

namespace LazilyPy.Reactive

open Option

variable {V : Type}

def Enum.stored : Enum :=
  fun _ l => l

theorem Enum.stored_lawful : Enum.stored.Lawful :=
  fun _ l => List.Perm.refl l

/-- `Config.Idle`, decided. -/
def Config.isIdle (c : Config V) : Bool :=
  match c.stack, c.ctl with
  | [], .returned _ => true
  | [], .raised => true
  | _, _ => false

theorem Config.isIdle_idle {c : Config V} (h : c.isIdle = true) : c.Idle := by
  obtain ⟨heap, t, st⟩ := c
  cases st with
  | nil =>
    cases t with
    | returned cl => exact ⟨rfl, .inr ⟨cl, rfl⟩⟩
    | raised => exact ⟨rfl, .inl rfl⟩
    | _ => simp [Config.isIdle] at h
  | cons f st => cases t <;> simp [Config.isIdle] at h

def quietCheck (c : Config V) : Bool :=
  match c.ctl with
  | .raised => false
  | _ => true

theorem quiet_of_check {c : Config V} (h : quietCheck c = true) : c.ctl ≠ .raised := by
  intro hctl
  simp [quietCheck, hctl] at h

variable [DecidableEq V]

/-- Statements until `stop`, each from a configuration that passes the check. -/
def playUntil (G : Graph V) (ord : Enum) (check stop : Config V → Bool) : ℕ → Config V → Option (Config V)
  | 0, _ => none
  | n + 1, c =>
    if stop c then some c
    else if check c then (step G ord c).bind (playUntil G ord check stop n)
    else none

/-- A call of the client, played until `stop`. -/
def playCall (G : Graph V) (ord : Enum) (check stop : Config V → Bool) (fuel : ℕ)
    (code : Code V) (c : Config V) : Option (Config V) :=
  if c.isIdle && check c then playUntil G ord check stop fuel (c.issue code) else none

def session (G : Graph V) (ord : Enum) (check : Config V → Bool) (fuel : ℕ) :
    List (Code V) → Config V → Option (Config V)
  | [], c => some c
  | code :: codes, c =>
    (playCall G ord check Config.isIdle fuel code c).bind (session G ord check fuel codes)

def Steps (G : Graph V) (ord : Enum) : Config V → Config V → Prop :=
  Relation.ReflTransGen fun c c' => step G ord c = some c'

/-- The client reads `d` in the idle configuration `c` and is handed `u`. -/
def Config.Returns (G : Graph V) (ord : Enum) (c : Config V) (d : Ref) (u : V) : Prop :=
  ∃ h, Steps G ord (c.issue (.read d fun _ => .done)) ⟨h, .value u, [.inCode none d fun _ => .done]⟩

/-- What the client is handed is determined. -/
theorem Config.Returns.det {G : Graph V} {ord : Enum} {c : Config V} {d : Ref} {u v : V}
    (hu : c.Returns G ord d u) (hv : c.Returns G ord d v) : u = v := by
  obtain ⟨h, hu⟩ := hu
  obtain ⟨h', hv⟩ := hv
  -- after the value has been handed out, no other value is
  have hlast : ∀ {h h' : Heap V} {u v : V}, Steps G ord ⟨h, .value u, [.inCode none d fun _ => .done]⟩
        ⟨h', .value v, [.inCode none d fun _ => .done]⟩ → u = v := by
    intro h h' u v hs
    rcases hs.cases_head with heq | ⟨c₁, h₁, hs⟩
    · cases heq
      rfl
    · cases h₁
      rcases hs.cases_head with heq | ⟨c₂, h₂, hs⟩
      · cases heq
      · cases h₂
        rcases hs.cases_head with heq | ⟨c₃, h₃, _⟩
        · cases heq
        · cases h₃
  have hunique : Relator.RightUnique fun c c' : Config V => step G ord c = some c' :=
    fun _ _ _ h₁ h₂ => some.inj (h₁ ▸ h₂)
  rcases Relation.ReflTransGen.total_of_right_unique hunique hu hv with hs | hs
  · exact hlast hs
  · exact (hlast hs).symm

section Sound

variable {G : Graph V} {S : Instr → Prop} {ord : Enum} {ok : Config V → Prop} {check stop : Config V → Bool}

variable {c c' : Config V}

theorem run_of_playUntil (hord : ord.Lawful) (hok : ∀ c, check c = true → ok c) {n : ℕ}
    (h : playUntil G ord check stop n c = some c') : Run G S ok c c' := by
  induction n generalizing c with
  | zero => cases h
  | succ n ih =>
    unfold playUntil at h
    split at h
    · cases h
      exact .refl
    · split at h
      · next hc =>
        obtain ⟨c₁, hs, hrest⟩ := bind_eq_some_iff.mp h
        exact .head ⟨hok c hc, .tick ord hord hs⟩ (ih hrest)
      · cases h

theorem steps_of_playUntil {n : ℕ} (h : playUntil G ord check stop n c = some c') : Steps G ord c c' := by
  induction n generalizing c with
  | zero => cases h
  | succ n ih =>
    unfold playUntil at h
    split at h
    · cases h
      exact .refl
    · split at h
      · obtain ⟨c₁, hs, hrest⟩ := bind_eq_some_iff.mp h
        exact .head hs (ih hrest)
      · cases h

theorem run_of_playCall (hord : ord.Lawful) (hok : ∀ c, check c = true → ok c) {fuel : ℕ} {code : Code V}
    (hcode : code.Within S) (h : playCall G ord check stop fuel code c = some c') : Run G S ok c c' := by
  unfold playCall at h
  split at h
  · next hc =>
    obtain ⟨hidle, hcheck⟩ := by simpa using hc
    exact .head ⟨hok c hcheck, .issue code (Config.isIdle_idle hidle) hcode⟩ (run_of_playUntil hord hok h)
  · cases h

theorem run_of_session (hord : ord.Lawful) (hok : ∀ c, check c = true → ok c) {fuel : ℕ} {codes : List (Code V)}
    (hcodes : ∀ code ∈ codes, code.Within S) (h : session G ord check fuel codes c = some c') : Run G S ok c c' := by
  induction codes generalizing c with
  | nil =>
    cases h
    exact .refl
  | cons code codes ih =>
    obtain ⟨c₁, hcall, hrest⟩ := bind_eq_some_iff.mp h
    exact (run_of_playCall hord hok (hcodes code List.mem_cons_self) hcall).trans
      (ih (fun code' hc' => hcodes code' (List.mem_cons_of_mem _ hc')) hrest)

end Sound

end LazilyPy.Reactive
