import LazilyPy.Replay.Canonical

/-!
# Canonical bytes determine the value
-/

namespace LazilyPy.Replay

open List

open Bytes (utf8 utf8_injective)
open Framing (ascii frame frame_inj frame_append_inj prefixFree_frames sortWords sortWords_eq_iff)

variable {v w : Value} {a b : Code} {nan : Double} {cls cls' : ClassName} {body body' r s : Code}
  {t : Char} {same : ClassName → ClassName → Prop}

def SameName (cls cls' : ClassName) : Prop :=
  cls.qualname = cls'.qualname

/-- What is not a number is `nan`. -/
def Nans (nan : Double) (v : Value) : Prop :=
  ∀ x : Double, Within (.float x) v → x.IsNaN → x = nan

theorem tagged_inj (h : tagged t body = tagged t body') : body = body' :=
  (frame_inj h).2

theorem tagged_append_inj (h : tagged t body ++ r = tagged t body' ++ s) : body = body' ∧ r = s :=
  (frame_append_inj h).2

theorem toNat_tag_lt (v : Value) : (tag v).toNat < 256 := by
  cases v <;> simp [tag]

theorem Alike.tag (h : Alike same v w) : Replay.tag v = Replay.tag w := by
  cases h <;> rfl

/-- Values with different tags have different codes, and are not alike. -/
theorem iff_of_tag_ne (hv : Codes v a) (hw : Codes w b) (h : tag v ≠ tag w) : a = b ↔ Alike same v w := by
  refine iff_of_false ?_ fun halike => h halike.tag
  rintro rfl
  obtain ⟨body, rfl⟩ := hv.tag
  obtain ⟨body', heq⟩ := hw.tag
  have htags := (frame_inj heq).1
  refine h (Char.toNat_inj.mp ?_)
  rw [← Framing.toNat_toUInt8 (toNat_tag_lt v), ← Framing.toNat_toUInt8 (toNat_tag_lt w), htags]

/-- The code of `v` tells which values are alike. -/
def Determines (nan : Double) (v : Value) : Prop :=
  ∀ w a b, Codes v a → Codes w b → Nans nan v → Nans nan w → (a = b ↔ Alike SameName v w)

section

variable {text text' : List Char}

theorem ascii_eq_iff (h : ∀ c ∈ text, c.toNat < 256) (h' : ∀ c ∈ text', c.toNat < 256) :
    tagged t (ascii text) = tagged t (ascii text') ↔ text = text' :=
  ⟨fun heq => Framing.ascii_inj h h' (tagged_inj heq), fun heq => heq ▸ rfl⟩

theorem determines_none : Determines nan .none := by
  intro w a b hv hw _ _
  cases w with
  | none =>
    obtain ⟨_, ⟨⟩⟩ := hv
    obtain ⟨_, ⟨⟩⟩ := hw
    exact iff_of_true rfl .none
  | _ => exact iff_of_tag_ne hv hw (by simp [tag])

theorem determines_bool (value : Bool) : Determines nan (.bool value) := by
  intro w a b hv hw _ _
  cases w with
  | bool value' =>
    obtain ⟨_, hv⟩ := hv
    obtain ⟨_, hw⟩ := hw
    cases value <;> cases value' <;> cases hv <;> cases hw
    · exact iff_of_true rfl (.bool false)
    · exact iff_of_false (by decide) (fun h => nomatch h)
    · exact iff_of_false (by decide) (fun h => nomatch h)
    · exact iff_of_true rfl (.bool true)
  | _ => exact iff_of_tag_ne hv hw (by simp [tag])

theorem determines_int (z : ℤ) : Determines nan (.int z) := by
  intro w a b hv hw _ _
  cases w with
  | int z' =>
    obtain ⟨_, ⟨⟩⟩ := hv
    obtain ⟨_, ⟨⟩⟩ := hw
    rw [ascii_eq_iff (fun c => toNat_of_mem_intText) (fun c => toNat_of_mem_intText)]
    constructor
    · intro h
      rw [intText_inj h]
      exact .int z'
    · rintro ⟨⟩
      rfl
  | _ => exact iff_of_tag_ne hv hw (by simp [tag])

theorem determines_float (x : Double) : Determines nan (.float x) := by
  intro w a b hv hw hnv hnw
  cases w with
  | float y =>
    obtain ⟨_, ⟨⟩⟩ := hv
    obtain ⟨_, ⟨⟩⟩ := hw
    rw [ascii_eq_iff toNat_of_mem_hex toNat_of_mem_hex]
    constructor
    · intro h
      have hxy : x = y := by
        by_cases hx : x.IsNaN <;> by_cases hy : y.IsNaN
        · rw [hnv x .self hx, hnw y .self hy]
        · exact absurd h (Double.hex_ne_of_isNaN hx hy)
        · exact absurd h.symm (Double.hex_ne_of_isNaN hy hx)
        · exact Double.hex_inj hx hy h
      rw [hxy]
      exact .float y
    · rintro ⟨⟩
      rfl
  | _ => exact iff_of_tag_ne hv hw (by simp [tag])

theorem determines_str (text : String) : Determines nan (.str text) := by
  intro w a b hv hw _ _
  cases w with
  | str text' =>
    obtain ⟨_, ⟨⟩⟩ := hv
    obtain ⟨_, ⟨⟩⟩ := hw
    constructor
    · intro h
      rw [utf8_injective (tagged_inj h)]
      exact .str text'
    · rintro ⟨⟩
      rfl
  | _ => exact iff_of_tag_ne hv hw (by simp [tag])

theorem determines_bytes (raw : List UInt8) : Determines nan (.bytes raw) := by
  intro w a b hv hw _ _
  cases w with
  | bytes raw' =>
    obtain ⟨_, ⟨⟩⟩ := hv
    obtain ⟨_, ⟨⟩⟩ := hw
    constructor
    · intro h
      rw [tagged_inj h]
      exact .bytes raw'
    · rintro ⟨⟩
      rfl
  | _ => exact iff_of_tag_ne hv hw (by simp [tag])

end

/-! ### Values with parts -/

/-- A name before a row of codes. -/
theorem named_eq_iff (t : Char) {name name' : String} :
    tagged t (tagged 's' (utf8 name) ++ r) = tagged t (tagged 's' (utf8 name') ++ s) ↔ name = name' ∧ r = s := by
  constructor
  · intro h
    obtain ⟨hname, hrest⟩ := tagged_append_inj (tagged_inj h)
    exact ⟨utf8_injective hname, hrest⟩
  · rintro ⟨rfl, rfl⟩
    rfl

theorem determines_enum (cls : ClassName) (h : Determines nan v) : Determines nan (.enum cls v) := by
  intro w a b hv hw hnv hnw
  cases w with
  | enum cls' w =>
    obtain ⟨c, hc, rfl⟩ := hv.enum
    obtain ⟨d, hd, rfl⟩ := hw.enum
    have hparts := h w c d hc hd (fun x hx => hnv x (.enum hx)) fun x hx => hnw x (.enum hx)
    rw [named_eq_iff, hparts]
    constructor
    · rintro ⟨hname, halike⟩
      exact .enum hname halike
    · intro halike
      cases halike with
      | enum hname halike => exact ⟨hname, halike⟩
  | _ => exact iff_of_tag_ne hv hw (by simp [tag])

variable {codes : List Code} {items : List Value}

theorem flatten_eq_iff {C : Set Code} (hC : Framing.PrefixFree C) {codes' : List Code} (h : ∀ c ∈ codes, c ∈ C)
    (h' : ∀ c ∈ codes', c ∈ C) :
    codes.flatten = codes'.flatten ↔ codes = codes' :=
  ⟨hC.flatten_inj h h', congrArg flatten⟩

theorem sorted_flatten_eq_iff {C : Set Code} (hC : Framing.PrefixFree C) {codes' : List Code}
    (h : ∀ c ∈ codes, c ∈ C) (h' : ∀ c ∈ codes', c ∈ C) :
    (sortWords codes).flatten = (sortWords codes').flatten ↔ codes.Perm codes' := by
  rw [flatten_eq_iff hC (fun c hc => h c ((Framing.sortWords_perm codes).mem_iff.mp hc))
    (fun c hc => h' c ((Framing.sortWords_perm codes').mem_iff.mp hc)), sortWords_eq_iff]

theorem codes_mem_frames (h : Forall₂ Codes items codes) : ∀ c ∈ codes, c ∈ Framing.frames :=
  forall_mem_of_forall₂ h fun _ _ hcode => hcode.mem_frames

theorem determines_sequence (kind : SequenceKind) (h : ∀ m ∈ items, Determines nan m) :
    Determines nan (.sequence kind items) := by
  intro w a b hv hw hnv hnw
  cases w with
  | sequence kind' items' =>
    obtain ⟨codes, hcodes, rfl⟩ := hv.sequence
    obtain ⟨codes', hcodes', rfl⟩ := hw.sequence
    have hitems : codes = codes' ↔ Forall₂ (Alike SameName) items items' :=
      eq_iff_forall₂ hcodes hcodes' fun m hm m' hm' c c' hc hc' =>
        h m hm m' c c' hc hc' (fun x hx => hnv x (.item hm hx)) fun x hx => hnw x (.item hm' hx)
    have hflatten := flatten_eq_iff prefixFree_frames (codes_mem_frames hcodes) (codes_mem_frames hcodes')
    constructor
    · intro heq
      exact .sequence (hitems.mp (hflatten.mp (tagged_inj heq)))
    · intro halike
      cases halike with
      | sequence halike => rw [hitems.mpr halike]
  | _ => exact iff_of_tag_ne hv hw (by simp [tag])

theorem determines_set {members : List Value} (h : ∀ m ∈ members, Determines nan m) :
    Determines nan (.set members) := by
  intro w a b hv hw hnv hnw
  cases w with
  | set members' =>
    obtain ⟨codes, hcodes, rfl⟩ := hv.set
    obtain ⟨codes', hcodes', rfl⟩ := hw.set
    have hmembers : codes.Perm codes' ↔ ∃ order, members'.Perm order ∧ Forall₂ (Alike SameName) members order :=
      perm_iff_forall₂ hcodes hcodes' fun m hm m' hm' c c' hc hc' =>
        h m hm m' c c' hc hc' (fun x hx => hnv x (.member hm hx)) fun x hx => hnw x (.member hm' hx)
    have hsorted := sorted_flatten_eq_iff prefixFree_frames (codes_mem_frames hcodes) (codes_mem_frames hcodes')
    constructor
    · intro heq
      obtain ⟨order, hperm, halike⟩ := hmembers.mp (hsorted.mp (tagged_inj heq))
      exact .set hperm halike
    · intro halike
      cases halike with
      | set hperm halike => rw [hsorted.mpr (hmembers.mpr ⟨_, hperm, halike⟩)]
  | _ => exact iff_of_tag_ne hv hw (by simp [tag])

/-- The code of an entry is two frames. -/
theorem pair_eq_iff {c c' d d' : Code} (hc : Codes v c) (hc' : Codes w c') : c ++ d = c' ++ d' ↔ c = c' ∧ d = d' := by
  constructor
  · intro h
    exact prefixFree_frames.append_inj c hc.mem_frames c' hc'.mem_frames d d' h
  · rintro ⟨rfl, rfl⟩
    rfl

theorem determines_mapping {entries : List (Value × Value)}
    (h : ∀ e ∈ entries, Determines nan e.1 ∧ Determines nan e.2) :
    Determines nan (.mapping entries) := by
  intro w a b hv hw hnv hnw
  cases w with
  | mapping entries' =>
    obtain ⟨codes, hcodes, rfl⟩ := hv.mapping
    obtain ⟨codes', hcodes', rfl⟩ := hw.mapping
    have hentries : codes.Perm codes' ↔ ∃ order, entries'.Perm order ∧ Forall₂
        (fun e f => Alike SameName e.1 f.1 ∧ Alike SameName e.2 f.2) entries order := by
      refine perm_iff_forall₂ hcodes hcodes' ?_
      rintro e he f hf _ _ ⟨c, d, hc, hd, rfl⟩ ⟨c', d', hc', hd', rfl⟩
      have hkey := (h e he).1 f.1 c c' hc hc' (fun x hx => hnv x (.key he hx)) fun x hx => hnw x (.key hf hx)
      have hvalue := (h e he).2 f.2 d d' hd hd' (fun x hx => hnv x (.entry he hx)) fun x hx => hnw x (.entry hf hx)
      rw [pair_eq_iff hc hc', hkey, hvalue]
    have hpairs {entries : List (Value × Value)} {codes : List Code} (hcodes : Forall₂
        (fun e code => ∃ c d, Codes e.1 c ∧ Codes e.2 d ∧ code = c ++ d) entries codes) :
        ∀ c ∈ codes, c ∈ {w | ∃ a ∈ Framing.frames, ∃ b ∈ Framing.frames, w = a ++ b} :=
      forall_mem_of_forall₂ hcodes fun _ _ ⟨c, d, hc, hd, heq⟩ =>
        ⟨c, hc.mem_frames, d, hd.mem_frames, heq⟩
    have hsorted := sorted_flatten_eq_iff (prefixFree_frames.pair prefixFree_frames) (hpairs hcodes) (hpairs hcodes')
    constructor
    · intro heq
      obtain ⟨order, hperm, halike⟩ := hentries.mp (hsorted.mp (tagged_inj heq))
      obtain ⟨hkeys, hvalues⟩ := forall₂_both.mp halike
      exact .mapping hperm hkeys hvalues
    · intro halike
      cases halike with
      | mapping hperm hkeys hvalues =>
        rw [hsorted.mpr (hentries.mpr ⟨_, hperm, forall₂_both.mpr ⟨hkeys, hvalues⟩⟩)]
  | _ => exact iff_of_tag_ne hv hw (by simp [tag])

theorem map_eq_iff_forall₂ {α β γ : Type} {f : α → γ} {g : β → γ} {l : List α} {l' : List β} :
    l.map f = l'.map g ↔ Forall₂ (fun x y => f x = g y) l l' := by
  rw [← forall₂_eq_eq_eq, forall₂_map_left_iff, forall₂_map_right_iff]

theorem determines_dataclass (cls : ClassName) {fields : List (String × Value)}
    (h : ∀ f ∈ fields, Determines nan f.2) : Determines nan (.dataclass cls fields) := by
  intro w a b hv hw hnv hnw
  cases w with
  | dataclass cls' fields' =>
    obtain ⟨codes, hcodes, rfl⟩ := hv.dataclass
    obtain ⟨codes', hcodes', rfl⟩ := hw.dataclass
    have hfields : codes = codes' ↔ Forall₂
        (fun f g => f.1 = g.1 ∧ Alike SameName f.2 g.2) fields fields' := by
      refine eq_iff_forall₂ hcodes hcodes' ?_
      rintro f hf g hg _ _ ⟨c, hc, rfl⟩ ⟨d, hd, rfl⟩
      have hvalue := h f hf g.2 c d hc hd (fun x hx => hnv x (.field hf hx)) fun x hx => hnw x (.field hg hx)
      rw [← hvalue]
      constructor
      · intro heq
        obtain ⟨hname, hrest⟩ := tagged_append_inj heq
        exact ⟨utf8_injective hname, hrest⟩
      · rintro ⟨hname, rfl⟩
        rw [hname]
    have hpairs {fields : List (String × Value)} {codes : List Code} (hcodes : Forall₂
        (fun f code => ∃ c, Codes f.2 c ∧ code = tagged 's' (utf8 f.1) ++ c) fields codes) :
        ∀ c ∈ codes, c ∈ {w | ∃ a ∈ Framing.frames, ∃ b ∈ Framing.frames, w = a ++ b} :=
      forall_mem_of_forall₂ hcodes fun _ _ ⟨c, hc, heq⟩ =>
        ⟨_, Framing.frame_mem_frames, c, hc.mem_frames, heq⟩
    have hflatten := flatten_eq_iff (prefixFree_frames.pair prefixFree_frames) (hpairs hcodes) (hpairs hcodes')
    rw [named_eq_iff, hflatten, hfields, forall₂_both, ← map_eq_iff_forall₂]
    constructor
    · rintro ⟨hname, hnames, hvalues⟩
      exact .dataclass hname hnames hvalues
    · intro halike
      cases halike with
      | dataclass hname hnames hvalues => exact ⟨hname, hnames, hvalues⟩
  | _ => exact iff_of_tag_ne hv hw (by simp [tag])

theorem determines (nan : Double) (v : Value) : Determines nan v := by
  induction v using Value.induct with
  | none => exact determines_none
  | bool value => exact determines_bool value
  | enum cls value ih => exact determines_enum cls ih
  | int value => exact determines_int value
  | float value => exact determines_float value
  | str value => exact determines_str value
  | bytes value => exact determines_bytes value
  | dataclass cls fields ih => exact determines_dataclass cls ih
  | mapping entries ih => exact determines_mapping ih
  | set members ih => exact determines_set ih
  | sequence kind items ih => exact determines_sequence kind ih
  | other cls =>
    rintro w a b ⟨path, hv⟩
    cases hv

/-! ### Supported values -/

def Supported (v : Value) : Prop :=
  ∀ cls, ¬ Within (.other cls) v

theorem canonicalFields_ok {fields : List (String × Value)}
    (h : ∀ f ∈ fields, ∀ path, ∃ a, canonical path f.2 = .ok a) (path : List Segment) :
    ∃ codes, canonicalFields path fields = .ok codes := by
  induction fields with
  | nil => exact ⟨[], rfl⟩
  | cons f fields ih =>
    obtain ⟨hhead, htail⟩ := forall_mem_cons.mp h
    obtain ⟨first, hfirst⟩ := hhead (path ++ [.field f.1])
    obtain ⟨rest, hrest⟩ := ih htail
    exact ⟨_, by rw [canonicalFields, hfirst, hrest]; rfl⟩

theorem canonicalEntries_ok {entries : List (Value × Value)}
    (h : ∀ e ∈ entries, (∀ path, ∃ a, canonical path e.1 = .ok a) ∧
      ∀ path, ∃ a, canonical path e.2 = .ok a) (path : List Segment) :
    ∃ codes, canonicalEntries path entries = .ok codes := by
  induction entries with
  | nil => exact ⟨[], rfl⟩
  | cons e entries ih =>
    obtain ⟨⟨hkey, hvalue⟩, htail⟩ := forall_mem_cons.mp h
    obtain ⟨first, hfirst⟩ := hkey (path ++ [.key])
    obtain ⟨second, hsecond⟩ := hvalue (path ++ [.entry e.1])
    obtain ⟨rest, hrest⟩ := ih htail
    exact ⟨_, by rw [canonicalEntries, hfirst, hsecond, hrest]; rfl⟩

theorem canonicalItems_ok (h : ∀ m ∈ items, ∀ path, ∃ a, canonical path m = .ok a) (paths : ℕ → List Segment) (n : ℕ) :
    ∃ codes, canonicalItems paths n items = .ok codes := by
  induction items generalizing n with
  | nil => exact ⟨[], rfl⟩
  | cons item items ih =>
    obtain ⟨hhead, htail⟩ := forall_mem_cons.mp h
    obtain ⟨first, hfirst⟩ := hhead (paths n)
    obtain ⟨rest, hrest⟩ := ih htail (n + 1)
    exact ⟨_, by rw [canonicalItems, hfirst, hrest]; rfl⟩

/-- A supported value has canonical bytes. -/
theorem canonical_ok (h : Supported v) : ∀ path, ∃ a, canonical path v = .ok a := by
  induction v using Value.induct with
  | none => exact fun path => ⟨_, rfl⟩
  | bool value =>
    intro path
    cases value with
    | false => exact ⟨_, rfl⟩
    | true => exact ⟨_, rfl⟩
  | enum cls value ih =>
    intro path
    obtain ⟨inner, hinner⟩ := ih (fun cls hcls => h cls (.enum hcls)) (path ++ [.field "value"])
    exact ⟨_, by rw [canonical, hinner]; rfl⟩
  | int value => exact fun path => ⟨_, rfl⟩
  | float value => exact fun path => ⟨_, rfl⟩
  | str value => exact fun path => ⟨_, rfl⟩
  | bytes value => exact fun path => ⟨_, rfl⟩
  | dataclass cls fields ih =>
    intro path
    obtain ⟨codes, hcodes⟩ := canonicalFields_ok (fun f hf => ih f hf fun cls hcls => h cls (.field hf hcls)) path
    exact ⟨_, by rw [canonical, hcodes]; rfl⟩
  | mapping entries ih =>
    intro path
    obtain ⟨codes, hcodes⟩ := canonicalEntries_ok (fun e he => ⟨(ih e he).1 fun cls hcls => h cls (.key he hcls),
        (ih e he).2 fun cls hcls => h cls (.entry he hcls)⟩) path
    exact ⟨_, by rw [canonical, hcodes]; rfl⟩
  | set members ih =>
    intro path
    obtain ⟨codes, hcodes⟩ := canonicalItems_ok
      (fun m hm => ih m hm fun cls hcls => h cls (.member hm hcls)) (fun _ => path ++ [.member]) 0
    exact ⟨_, by rw [canonical, hcodes]; rfl⟩
  | sequence kind items ih =>
    intro path
    obtain ⟨codes, hcodes⟩ := canonicalItems_ok (fun m hm => ih m hm fun cls hcls => h cls (.item hm hcls))
      (fun index => path ++ [.index index]) 0
    exact ⟨_, by rw [canonical, hcodes]; rfl⟩
  | other cls => exact absurd .self (h cls)

end LazilyPy.Replay
