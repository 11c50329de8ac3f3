import LazilyPy.Lib.MapM
import Mathlib.Data.List.Induction
import Mathlib.Data.List.Nodup
import Mathlib.Data.List.TakeWhile

/-!
# The text exposition of metrics

A registry is rendered line by line: for each family its documentation and its kind, and then its samples. Names are
checked when a family is made, and documentation and label values are escaped when they are rendered. The text is read
back by the grammar of the exposition format.

A check by a pattern that ends in `$` lets a name pass that ends in a newline.
-/

namespace LazilyPy.Metrics

open List Option

/-- A string, as the list of its characters. -/
abbrev Text := List Char

/-! ## Names -/

def isNameStart (c : Char) : Bool :=
  c.isAlpha || c = '_' || c = ':'

def isNamePart (c : Char) : Bool :=
  c.isAlphanum || c = '_' || c = ':'

def isLabelStart (c : Char) : Bool :=
  c.isAlpha || c = '_'

def isLabelPart (c : Char) : Bool :=
  c.isAlphanum || c = '_'

/-- `re.compile("^[start][part]*$").match(name)`. The dollar is also in front of a newline at the end. -/
def matchName (start part : Char → Bool) : Text → Bool
  | [] => false
  | c :: rest => start c && (rest.all part || (rest.getLast? = some '\n' && rest.dropLast.all part))

inductive MetricNameError where
  | metricName (name : Text)
  | labelName (label : Text)
  | reserved (label : Text)
  | duplicate (labels : List Text)
  deriving DecidableEq

def checkMetricName (name : Text) : Except MetricNameError Text :=
  if matchName isNameStart isNamePart name then .ok name else .error (.metricName name)

def checkLabelName (label : Text) : Except MetricNameError Unit :=
  if !matchName isLabelStart isLabelPart label then .error (.labelName label)
  else if ['_', '_'].isPrefixOf label then .error (.reserved label)
  else .ok ()

def checkLabelNames (labelNames : List Text) : Except MetricNameError (List Text) := do
  forM labelNames checkLabelName
  if labelNames.Nodup then return labelNames else throw (.duplicate labelNames)

/-! ## Families -/

inductive MetricKind where
  | counter | gauge
  deriving DecidableEq, Repr

def MetricKind.value : MetricKind → Text
  | counter => ['c', 'o', 'u', 'n', 't', 'e', 'r']
  | gauge => ['g', 'a', 'u', 'g', 'e']

/-- What a value is rendered as. It stays on its line. -/
abbrev Token := { token : Text // '\n' ∉ token }

structure MetricSample where
  labels : List Text
  value : Token
  deriving DecidableEq

/-- A family with its children. Its names have been accepted, and every child has a value for each label. -/
structure MetricFamily where
  name : Text
  documentation : Text
  kind : MetricKind
  labelNames : List Text
  samples : List MetricSample
  name_accepted : checkMetricName name = .ok name
  labels_accepted : checkLabelNames labelNames = .ok labelNames
  labels_length : ∀ s ∈ samples, s.labels.length = labelNames.length

structure MetricsRegistry where
  families : List MetricFamily
  distinct : (families.map MetricFamily.name).Nodup

/-! ## Rendering -/

/-- `text.replace(c, by_)`. -/
def replace (c : Char) (by_ : Text) (text : Text) : Text :=
  text.flatMap fun x => if x = c then by_ else [x]

def escapeDocumentation (text : Text) : Text :=
  replace '\n' ['\\', 'n'] (replace '\\' ['\\', '\\'] text)

def escapeLabelValue (text : Text) : Text :=
  replace '\n' ['\\', 'n'] (replace '"' ['\\', '"'] (replace '\\' ['\\', '\\'] text))

/-- The beginnings `# HELP ` and `# TYPE ` of the lines that are no samples. -/
def helpStart : Text :=
  ['#', ' ', 'H', 'E', 'L', 'P', ' ']

def typeStart : Text :=
  ['#', ' ', 'T', 'Y', 'P', 'E', ' ']

def renderLabel (label : Text × Text) : Text :=
  label.1 ++ '=' :: '"' :: escapeLabelValue label.2 ++ ['"']

namespace MetricFamily

def helpLine (f : MetricFamily) : Text :=
  helpStart ++ f.name ++ ' ' :: escapeDocumentation f.documentation

def typeLine (f : MetricFamily) : Text :=
  typeStart ++ f.name ++ ' ' :: f.kind.value

def sampleLine (f : MetricFamily) (s : MetricSample) : Text :=
  if f.labelNames ≠ [] then
    f.name ++ '\x7b' :: [','].intercalate ((f.labelNames.zip s.labels).map renderLabel) ++ '\x7d' :: ' ' :: s.value.1
  else f.name ++ ' ' :: s.value.1

def lines (f : MetricFamily) : List Text :=
  f.helpLine :: f.typeLine :: f.samples.map f.sampleLine

end MetricFamily

def MetricsRegistry.renderText (r : MetricsRegistry) : Text :=
  (r.families.flatMap MetricFamily.lines).flatMap (· ++ ['\n'])

/-! ## The grammar -/

/-- A family as it is read. Its kind is not known before its second line. -/
structure Exposed where
  name : Text
  documentation : Text
  kind : Option MetricKind
  samples : List (List (Text × Text) × Text)
  deriving DecidableEq

inductive Line where
  | help (name documentation : Text)
  | type (name : Text) (kind : MetricKind)
  | sample (name : Text) (labels : List (Text × Text)) (value : Text)

def unescapeChar (c : Char) : Option Char :=
  if c = 'n' then some '\n' else if c = '\\' ∨ c = '"' then some c else none

/-- The documentation with its escapes undone. -/
def unescape : Text → Option Text
  | [] => some []
  | '\\' :: c :: l => (unescapeChar c).bind fun c => (unescape l).map (c :: ·)
  | c :: l => if c = '\\' then none else (unescape l).map (c :: ·)

/-- Where the reader of labels is. -/
inductive LabelState where
  | name (read : Text)
  | quote (name : Text)
  | value (name read : Text)
  | escape (name read : Text)
  | behind

/-- The labels up to the closing brace, and what comes behind it. -/
def readLabels : LabelState → List (Text × Text) → Text → Option (List (Text × Text) × Text)
  | .name read, labels, c :: l =>
    if c = '=' then readLabels (.quote read) labels l
    else if isLabelPart c then readLabels (.name (read ++ [c])) labels l else none
  | .quote name, labels, c :: l => if c = '"' then readLabels (.value name []) labels l else none
  | .value name read, labels, c :: l =>
    if c = '"' then readLabels .behind (labels ++ [(name, read)]) l
    else if c = '\\' then readLabels (.escape name read) labels l
    else readLabels (.value name (read ++ [c])) labels l
  | .escape name read, labels, c :: l =>
    match unescapeChar c with
    | some c => readLabels (.value name (read ++ [c])) labels l
    | none => none
  | .behind, labels, c :: l =>
    if c = ',' then readLabels (.name []) labels l else if c = '\x7d' then some (labels, l) else none
  | _, _, [] => none

/-- The rest behind a prefix. -/
def strip (p l : Text) : Option Text :=
  if p.isPrefixOf l then some (l.drop p.length) else none

/-- A name, and what comes behind the character that ends it. -/
def readName (l : Text) : Option (Text × Char × Text) :=
  match l.dropWhile isNamePart with
  | c :: rest => some (l.takeWhile isNamePart, c, rest)
  | [] => none

def readLine (l : Text) : Option Line :=
  match strip helpStart l with
  | some l => do
    let (name, c, l) ← readName l
    if c = ' ' then (unescape l).map (.help name) else none
  | none =>
    match strip typeStart l with
    | some l => do
      let (name, c, l) ← readName l
      if c ≠ ' ' then none
      else if l = MetricKind.counter.value then some (.type name .counter)
      else if l = MetricKind.gauge.value then some (.type name .gauge) else none
    | none => do
      let (name, c, l) ← readName l
      if c = ' ' then some (.sample name [] l)
      else if c = '\x7b' then do
        let (labels, l) ← readLabels (.name []) [] l
        match l with
        | ' ' :: value => some (.sample name labels value)
        | _ => none
      else none

/-- A line that is read begins a family or goes on with the last one. -/
def assemble (fs : List Exposed) (line : Line) : Option (List Exposed) :=
  match line, fs.getLast? with
  | .help name documentation, _ => some (fs ++ [⟨name, documentation, none, []⟩])
  | .type name kind, some f =>
    if f.name = name ∧ f.kind = none then some (fs.dropLast ++ [{ f with kind := some kind }]) else none
  | .sample name labels value, some f =>
    if f.name = name ∧ f.kind ≠ none then
      some (fs.dropLast ++ [{ f with samples := f.samples ++ [(labels, value)] }])
    else none
  | _, none => none

/-- The families of a text, which is split at newlines. -/
def parse (text : Text) : Option (List Exposed) :=
  match (text.splitOn '\n').reverse with
  | [] :: lines => do
    let lines ← lines.reverse.mapM readLine
    lines.foldlM assemble []
  | _ => none

/-! ## What is read -/

section Reading

variable {name label rest l : Text} {c : Char}

theorem readName_append (hname : ∀ x ∈ name, isNamePart x = true) (hc : isNamePart c = false) :
    readName (name ++ c :: rest) = some (name, c, rest) := by
  have htake : (name ++ c :: rest).takeWhile isNamePart = name := by
    rw [takeWhile_append_of_pos hname, takeWhile_cons_of_neg (by simp [hc]), append_nil]
  have hdrop : (name ++ c :: rest).dropWhile isNamePart = c :: rest := by
    rw [dropWhile_append_of_pos hname, dropWhile_cons_of_neg (by simp [hc])]
  rw [readName, hdrop, htake]

theorem strip_append (p l : Text) : strip p (p ++ l) = some l := by
  rw [strip, if_pos ( isPrefixOf_iff_prefix.mpr (prefix_append p l)), drop_left]

/-- A name does not begin as a comment does. -/
theorem strip_comment (p : Text) (hc : isNamePart c = true) : strip ('#' :: p) (c :: l) = none := by
  have hne : ('#' == c) = false := by
    rw [beq_eq_false_iff_ne]
    rintro rfl
    exact absurd hc (by decide)
  rw [strip, isPrefixOf_cons_cons, hne]
  rfl

theorem unescape_cons (hc : c ≠ '\\') (l : Text) : unescape (c :: l) = (unescape l).map (c :: ·) := by
  rw [unescape.eq_3 _ _ (fun _ _ h => absurd h hc), if_neg hc]

theorem escapeDocumentation_cons (c : Char) (text : Text) : escapeDocumentation (c :: text) =
    (if c = '\\' then ['\\', '\\'] else if c = '\n' then ['\\', 'n'] else [c]) ++ escapeDocumentation text := by
  simp only [escapeDocumentation, replace, flatMap_cons, flatMap_append]
  congr 1
  by_cases hslash : c = '\\'
  · subst hslash
    rfl
  · simp [hslash]

theorem unescape_escapeDocumentation (text : Text) : unescape (escapeDocumentation text) = some text := by
  induction text with
  | nil => rfl
  | cons c text ih =>
    rw [escapeDocumentation_cons]
    split
    · next hc =>
      subst hc
      exact congrArg (Option.map _) ih
    · next hc =>
      split
      · next hc =>
        subst hc
        exact congrArg (Option.map _) ih
      · rw [singleton_append, unescape_cons hc, ih]
        rfl

theorem escapeLabelValue_cons (c : Char) (text : Text) : escapeLabelValue (c :: text) =
    (if c = '\\' then ['\\', '\\'] else if c = '"' then ['\\', '"'] else if c = '\n' then ['\\', 'n'] else [c]) ++
      escapeLabelValue text := by
  simp only [escapeLabelValue, replace, flatMap_cons, flatMap_append]
  congr 1
  by_cases hslash : c = '\\'
  · subst hslash
    rfl
  · by_cases hquote : c = '"'
    · subst hquote
      rfl
    · simp [hslash, hquote]

/-- An escaped value is read up to the quote behind it. -/
theorem readLabels_value (name read value : Text) (labels : List (Text × Text)) (l : Text) :
    readLabels (.value name read) labels (escapeLabelValue value ++ '"' :: l) =
      readLabels .behind (labels ++ [(name, read ++ value)]) l := by
  induction value generalizing read with
  | nil => simp [escapeLabelValue, replace, readLabels]
  | cons c value ih =>
    have hstep : readLabels (.value name read) labels (escapeLabelValue (c :: value) ++ '"' :: l) =
        readLabels (.value name (read ++ [c])) labels (escapeLabelValue value ++ '"' :: l) := by
      rw [escapeLabelValue_cons]
      split
      · next hc =>
        subst hc
        rfl
      · next hslash =>
        split
        · next hc =>
          subst hc
          rfl
        · next hquote =>
          split
          · next hc =>
            subst hc
            rfl
          · rw [singleton_append, cons_append, readLabels, if_neg hquote, if_neg hslash]
    rw [hstep, ih, append_assoc, singleton_append]

theorem readLabels_name (hlabel : ∀ x ∈ label, isLabelPart x = true) (read : Text) (labels : List (Text × Text))
    (l : Text) : readLabels (.name read) labels (label ++ '=' :: l) = readLabels (.quote (read ++ label)) labels l := by
  induction label generalizing read with
  | nil => simp [readLabels]
  | cons c label ih =>
    obtain ⟨hc, hlabel⟩ := forall_mem_cons.mp hlabel
    have hne : c ≠ '=' := by
      rintro rfl
      exact absurd hc (by decide)
    rw [cons_append, readLabels, if_neg hne, if_pos hc, ih hlabel, append_assoc, singleton_append]

theorem readLabels_render {label : Text × Text} (hlabel : ∀ x ∈ label.1, isLabelPart x = true)
    (labels : List (Text × Text)) (l : Text) :
    readLabels (.name []) labels (renderLabel label ++ l) = readLabels .behind (labels ++ [label]) l := by
  have hrender : renderLabel label ++ l = label.1 ++ '=' :: ('"' :: (escapeLabelValue label.2 ++ '"' :: l)) := by
    simp [renderLabel]
  rw [hrender, readLabels_name hlabel, readLabels, if_pos rfl, readLabels_value, nil_append, nil_append]

theorem readLabels_all {pairs : List (Text × Text)} (hne : pairs ≠ [])
    (hpairs : ∀ label ∈ pairs, ∀ x ∈ label.1, isLabelPart x = true) (labels : List (Text × Text)) (l : Text) :
    readLabels (.name []) labels ([','].intercalate (pairs.map renderLabel) ++ '\x7d' :: l) =
      some (labels ++ pairs, l) := by
  induction pairs generalizing labels with
  | nil => exact absurd rfl hne
  | cons label pairs ih =>
    obtain ⟨hlabel, hpairs⟩ := forall_mem_cons.mp hpairs
    cases pairs with
    | nil =>
      have hone : [','].intercalate ([label].map renderLabel) = renderLabel label := by simp
      rw [hone, readLabels_render hlabel]
      rfl
    | cons label' pairs =>
      have hmore : [','].intercalate ((label :: label' :: pairs).map renderLabel) ++ '\x7d' :: l =
          renderLabel label ++ ',' :: ([','].intercalate ((label' :: pairs).map renderLabel) ++ '\x7d' :: l) := by
        simp [intercalate_cons_cons]
      rw [hmore, readLabels_render hlabel, readLabels, if_pos rfl, ih (cons_ne_nil _ _) hpairs,
        append_assoc, singleton_append]

end Reading

/-! ## What is in a registry -/

def MetricFamily.exposed (f : MetricFamily) : Exposed where
  name := f.name
  documentation := f.documentation
  kind := some f.kind
  samples := f.samples.map fun s => (f.labelNames.zip s.labels, s.value.1)

def MetricsRegistry.contents (r : MetricsRegistry) : List Exposed :=
  r.families.map MetricFamily.exposed

/-- No name in the text has a newline. Those of labels are only in samples. -/
def MetricsRegistry.Clean (r : MetricsRegistry) : Prop :=
  ∀ f ∈ r.families, '\n' ∉ f.name ∧ (f.samples ≠ [] → ∀ label ∈ f.labelNames, '\n' ∉ label)

/-! ## The text is read back -/

section RoundTrip

variable {name label l : Text} {f : MetricFamily} {e : Exposed} {fs fs' : List Exposed}

/-- What a pattern lets pass is of its characters, but for a newline. -/
theorem matchName_all {start part : Char → Bool} (hstart : ∀ c, start c = true → part c = true)
    (h : matchName start part name = true) (hnewline : '\n' ∉ name) :
    ∃ c rest, name = c :: rest ∧ ∀ x ∈ name, part x = true := by
  cases name with
  | nil => cases h
  | cons c rest =>
    rw [matchName, Bool.and_eq_true, Bool.or_eq_true, Bool.and_eq_true, decide_eq_true_eq] at h
    obtain ⟨hc, hrest | ⟨hlast, -⟩⟩ := h
    · exact ⟨c, rest, rfl, forall_mem_cons.mpr ⟨hstart c hc, List.all_eq_true.mp hrest⟩⟩
    · exact absurd (mem_cons_of_mem c (mem_of_getLast? hlast)) hnewline

theorem isNamePart_of_start (c : Char) (h : isNameStart c = true) : isNamePart c = true := by
  simp only [isNameStart, isNamePart, Char.isAlphanum, Bool.or_eq_true] at h ⊢
  tauto

theorem isLabelPart_of_start (c : Char) (h : isLabelStart c = true) : isLabelPart c = true := by
  simp only [isLabelStart, isLabelPart, Char.isAlphanum, Bool.or_eq_true] at h ⊢
  tauto

theorem name_part (f : MetricFamily) (hnewline : '\n' ∉ f.name) :
    ∃ c rest, f.name = c :: rest ∧ ∀ x ∈ f.name, isNamePart x = true := by
  have haccepted := f.name_accepted
  rw [checkMetricName] at haccepted
  split at haccepted
  · next hmatch => exact matchName_all isNamePart_of_start hmatch hnewline
  · cases haccepted

theorem label_part (f : MetricFamily) (hmem : label ∈ f.labelNames) (hnewline : '\n' ∉ label) :
    ∀ x ∈ label, isLabelPart x = true := by
  have hmatch : ∀ (labels : List Text), forM labels checkLabelName = .ok () →
      ∀ label ∈ labels, matchName isLabelStart isLabelPart label = true := by
    intro labels
    induction labels with
    | nil => exact fun _ _ => nofun
    | cons a labels ih =>
      intro h
      rw [forM_cons, checkLabelName] at h
      split at h
      · cases h
      · next hok =>
        split at h
        · cases h
        · exact forall_mem_cons.mpr ⟨by simpa using hok, ih h⟩
  have haccepted := f.labels_accepted
  rw [checkLabelNames] at haccepted
  cases hlabels : forM f.labelNames checkLabelName with
  | error e =>
    rw [hlabels] at haccepted
    cases haccepted
  | ok u =>
    obtain ⟨c, rest, -, hall⟩ := matchName_all isLabelPart_of_start (hmatch _ hlabels label hmem) hnewline
    exact hall

theorem readLine_help (hnewline : '\n' ∉ f.name) : readLine f.helpLine = some (.help f.name f.documentation) := by
  obtain ⟨c, rest, -, hpart⟩ := name_part f hnewline
  rw [readLine, MetricFamily.helpLine, append_assoc, strip_append]
  simp only [readName_append hpart (by decide : isNamePart ' ' = false), bind_eq_bind, bind_some, if_true,
    unescape_escapeDocumentation, map_some]

theorem readLine_type (hnewline : '\n' ∉ f.name) : readLine f.typeLine = some (.type f.name f.kind) := by
  obtain ⟨c, rest, -, hpart⟩ := name_part f hnewline
  have hhelp : ∀ l, strip helpStart (typeStart ++ l) = none := fun _ => rfl
  rw [readLine, MetricFamily.typeLine, append_assoc, hhelp, strip_append]
  simp only [readName_append hpart (by decide : isNamePart ' ' = false), bind_eq_bind, bind_some]
  cases f.kind with
  | counter => rfl
  | gauge => rfl

theorem readLine_sample (hnewline : '\n' ∉ f.name) {s : MetricSample} (hs : s ∈ f.samples)
    (hlabels : ∀ label ∈ f.labelNames, '\n' ∉ label) :
    readLine (f.sampleLine s) = some (.sample f.name (f.labelNames.zip s.labels) s.value.1) := by
  obtain ⟨c, rest, hname, hpart⟩ := name_part f hnewline
  have hc : isNamePart c = true := hpart c (hname ▸ mem_cons_self)
  have hcomment : ∀ p l, strip ('#' :: p) (f.name ++ l) = none := by
    intro p l
    rw [hname]
    exact strip_comment p hc
  have hhelp : ∀ l, strip helpStart (f.name ++ l) = none := hcomment _
  have htype : ∀ l, strip typeStart (f.name ++ l) = none := hcomment _
  rw [readLine, MetricFamily.sampleLine]
  by_cases hnil : f.labelNames = []
  · rw [if_neg (not_not.mpr hnil), hhelp, htype, hnil, zip_nil_left]
    simp only [readName_append hpart (by decide : isNamePart ' ' = false), bind_eq_bind, bind_some, if_true]
  · have hzip : f.labelNames.zip s.labels ≠ [] := by
      intro hzip
      obtain h | h := zip_eq_nil_iff.mp hzip
      · exact hnil h
      · have hlen := f.labels_length s hs
        rw [h] at hlen
        exact hnil (length_eq_zero_iff.mp hlen.symm)
    have hpairs : ∀ pair ∈ f.labelNames.zip s.labels, ∀ x ∈ pair.1, isLabelPart x = true := fun pair hpair =>
      have hmem := (of_mem_zip hpair).1
      label_part f hmem (hlabels _ hmem)
    have hbrace : '\x7b' ≠ ' ' := by decide
    rw [if_pos hnil, append_assoc, hhelp, htype]
    simp only [cons_append, readName_append hpart (by decide : isNamePart '\x7b' = false), bind_eq_bind,
      bind_some, if_neg hbrace, if_true, readLabels_all hzip hpairs, nil_append]

/-! ### Lines -/

theorem newline_not_mem_escapeDocumentation (text : Text) : '\n' ∉ escapeDocumentation text := by
  induction text with
  | nil => exact not_mem_nil
  | cons c text ih =>
    rw [escapeDocumentation_cons, mem_append, not_or]
    refine ⟨?_, ih⟩
    split
    · decide
    · split
      · decide
      · next hc => exact fun h => hc (mem_singleton.mp h).symm

theorem newline_not_mem_escapeLabelValue (text : Text) : '\n' ∉ escapeLabelValue text := by
  induction text with
  | nil => exact not_mem_nil
  | cons c text ih =>
    rw [escapeLabelValue_cons, mem_append, not_or]
    refine ⟨?_, ih⟩
    split
    · decide
    · split
      · decide
      · split
        · decide
        · next hc => exact fun h => hc (mem_singleton.mp h).symm

theorem not_mem_intercalate {c : Char} (hc : c ≠ ',') {ls : List Text} (h : ∀ l ∈ ls, c ∉ l) :
    c ∉ [','].intercalate ls := by
  induction ls with
  | nil => simp
  | cons l ls ih =>
    obtain ⟨hl, hls⟩ := forall_mem_cons.mp h
    cases ls with
    | nil => simpa using hl
    | cons l' ls =>
      rw [intercalate_cons_cons, mem_append, mem_append, mem_singleton]
      rintro ((hmem | heq) | hmem)
      · exact hl hmem
      · exact hc heq
      · exact ih hls hmem

theorem newline_not_mem_line (hnewline : '\n' ∉ f.name)
    (hlabels : f.samples ≠ [] → ∀ label ∈ f.labelNames, '\n' ∉ label)
    (hl : l ∈ f.lines) : '\n' ∉ l := by
  obtain rfl | hl := mem_cons.mp hl
  · simp [MetricFamily.helpLine, helpStart, hnewline, newline_not_mem_escapeDocumentation]
  · obtain rfl | hl := mem_cons.mp hl
    · cases hkind : f.kind <;> simp [MetricFamily.typeLine, typeStart, MetricKind.value, hnewline, hkind]
    · obtain ⟨s, hs, rfl⟩ := List.mem_map.mp hl
      have hpairs : ∀ pair ∈ f.labelNames.zip s.labels, '\n' ∉ renderLabel pair := by
        intro pair hpair
        have hname := hlabels (ne_nil_of_mem hs) _ (of_mem_zip hpair).1
        simp [renderLabel, hname, newline_not_mem_escapeLabelValue]
      have hjoined : '\n' ∉ [','].intercalate ((f.labelNames.zip s.labels).map renderLabel) :=
        not_mem_intercalate (by decide) fun l hl => by
          obtain ⟨pair, hpair, rfl⟩ := List.mem_map.mp hl
          exact hpairs pair hpair
      rw [MetricFamily.sampleLine]
      split
      · simp [hnewline, hjoined, s.value.2]
      · simp [hnewline, s.value.2]

theorem splitOn_lines {ls : List Text} (h : ∀ l ∈ ls, '\n' ∉ l) :
    (ls.flatMap (· ++ ['\n'])).splitOn '\n' = ls ++ [[]] := by
  induction ls with
  | nil => rfl
  | cons l ls ih =>
    obtain ⟨hl, hls⟩ := forall_mem_cons.mp h
    rw [flatMap_cons, append_assoc, singleton_append, splitOn_append_cons_self_of_not_mem hl, ih hls, cons_append]

/-! ### Families -/

/-- The lines of a family as they are read. -/
def MetricFamily.read (f : MetricFamily) : List Line :=
  .help f.name f.documentation :: .type f.name f.kind ::
    f.samples.map fun s => .sample f.name (f.labelNames.zip s.labels) s.value.1

theorem foldlM_assemble_samples (hkind : e.kind ≠ none) (fs : List Exposed)
    (samples : List (List (Text × Text) × Text)) :
    (samples.map fun s => Line.sample e.name s.1 s.2).foldlM assemble (fs ++ [e]) =
      some (fs ++ [{ e with samples := e.samples ++ samples }]) := by
  induction samples generalizing e with
  | nil => rw [append_nil]; rfl
  | cons s samples ih =>
    have hstep : assemble (fs ++ [e]) (.sample e.name s.1 s.2) =
        some (fs ++ [{ e with samples := e.samples ++ [s] }]) := by
      simp [assemble, hkind]
    rw [map_cons, foldlM_cons, hstep]
    refine (ih (e := { e with samples := e.samples ++ [s] }) hkind).trans ?_
    rw [append_assoc, singleton_append]

theorem foldlM_assemble_read (fs : List Exposed) (f : MetricFamily) :
    f.read.foldlM assemble fs = some (fs ++ [f.exposed]) := by
  have hhelp : assemble fs (.help f.name f.documentation) = some (fs ++ [⟨f.name, f.documentation, none, []⟩]) := rfl
  have htype : assemble (fs ++ [⟨f.name, f.documentation, none, []⟩]) (.type f.name f.kind) =
      some (fs ++ [⟨f.name, f.documentation, some f.kind, []⟩]) := by simp [assemble]
  rw [MetricFamily.read, foldlM_cons, hhelp, bind_eq_bind, bind_some, foldlM_cons, htype]
  have hsamples := foldlM_assemble_samples (e := ⟨f.name, f.documentation, some f.kind, []⟩) nofun fs
    (f.samples.map fun s => (f.labelNames.zip s.labels, s.value.1))
  rw [List.map_map] at hsamples
  exact hsamples

theorem mapM_lines (hnewline : '\n' ∉ f.name) (hlabels : f.samples ≠ [] → ∀ label ∈ f.labelNames, '\n' ∉ label) :
    f.lines.mapM readLine = some f.read := by
  refine mapM_eq_some.mpr (.cons (readLine_help hnewline) (.cons (readLine_type hnewline) ?_))
  rw [forall₂_map_left_iff, forall₂_map_right_iff, forall₂_same]
  exact fun s hs => readLine_sample hnewline hs (hlabels (ne_nil_of_mem hs))

theorem parse_renderText {r : MetricsRegistry} (h : r.Clean) : parse r.renderText = some r.contents := by
  have hlines : ∀ l ∈ r.families.flatMap MetricFamily.lines, '\n' ∉ l := by
    intro l hl
    obtain ⟨f, hf, hl⟩ := mem_flatMap.mp hl
    exact newline_not_mem_line (h f hf).1 (h f hf).2 hl
  have hread : ∀ families : List MetricFamily, families ⊆ r.families →
      (families.flatMap MetricFamily.lines).mapM readLine = some (families.flatMap MetricFamily.read) := by
    intro families hsub
    induction families with
    | nil => rfl
    | cons f families ih =>
      obtain ⟨hf, hfamilies⟩ := cons_subset.mp hsub
      rw [flatMap_cons, mapM_append, mapM_lines (h f hf).1 (h f hf).2, ih hfamilies]
      rfl
  have hfold : ∀ fs, (r.families.flatMap MetricFamily.read).foldlM assemble fs = some (fs ++ r.contents) := by
    rw [MetricsRegistry.contents]
    induction r.families with
    | nil => exact fun fs => by rw [map_nil, append_nil]; rfl
    | cons f families ih =>
      intro fs
      rw [flatMap_cons, foldlM_append, foldlM_assemble_read, bind_eq_bind, bind_some, ih,
        append_assoc, map_cons, singleton_append]
  rw [parse, MetricsRegistry.renderText, splitOn_lines hlines, reverse_append, reverse_singleton, singleton_append]
  simp only [reverse_reverse, hread _ (Subset.refl _), bind_eq_bind, bind_some, hfold, nil_append]

/-! ### What is read has no newline in its names -/

def Line.Plain : Line → Prop
  | .help name _ => ∀ x ∈ name, isNamePart x = true
  | .type name _ => ∀ x ∈ name, isNamePart x = true
  | .sample name labels _ => (∀ x ∈ name, isNamePart x = true) ∧ ∀ label ∈ labels, ∀ x ∈ label.1, isLabelPart x = true

def Exposed.Plain (e : Exposed) : Prop :=
  (∀ x ∈ e.name, isNamePart x = true) ∧ ∀ s ∈ e.samples, ∀ label ∈ s.1, ∀ x ∈ label.1, isLabelPart x = true

theorem readName_plain {c : Char} {rest : Text} (h : readName l = some (name, c, rest)) :
    ∀ x ∈ name, isNamePart x = true := by
  rw [readName] at h
  split at h
  · cases h
    exact fun x hx => mem_takeWhile_imp hx
  · cases h

/-- The name that is being read. -/
def LabelState.current : LabelState → Text
  | .name read => read
  | .quote name => name
  | .value name _ => name
  | .escape name _ => name
  | .behind => []

theorem readLabels_plain {state : LabelState} {labels pairs : List (Text × Text)} {rest : Text}
    (h : readLabels state labels l = some (pairs, rest)) (hstate : ∀ x ∈ state.current, isLabelPart x = true)
    (hlabels : ∀ label ∈ labels, ∀ x ∈ label.1, isLabelPart x = true) :
    ∀ label ∈ pairs, ∀ x ∈ label.1, isLabelPart x = true := by
  induction l generalizing state labels with
  | nil => cases state <;> cases h
  | cons c l ih =>
    cases state with
    | name read =>
      rw [readLabels] at h
      split at h
      · exact ih h hstate hlabels
      · split at h
        · next hc => exact ih h (forall_mem_append.mpr ⟨hstate, forall_mem_singleton.mpr hc⟩) hlabels
        · cases h
    | quote name =>
      rw [readLabels] at h
      split at h
      · exact ih h hstate hlabels
      · cases h
    | value name read =>
      rw [readLabels] at h
      split at h
      · exact ih h (fun _ => nofun) (forall_mem_append.mpr ⟨hlabels, forall_mem_singleton.mpr hstate⟩)
      · split at h
        · exact ih h hstate hlabels
        · exact ih h hstate hlabels
    | escape name read =>
      rw [readLabels] at h
      split at h
      · exact ih h hstate hlabels
      · cases h
    | behind =>
      rw [readLabels] at h
      split at h
      · exact ih h (fun _ => nofun) hlabels
      · split at h
        · cases h
          exact hlabels
        · cases h

theorem readLine_plain {line : Line} (h : readLine l = some line) : line.Plain := by
  rw [readLine] at h
  split at h
  · obtain ⟨⟨name, c, rest⟩, hname, h⟩ := bind_eq_some_iff.mp h
    dsimp only at h
    split at h
    · obtain ⟨documentation, -, rfl⟩ := map_eq_some_iff.mp h
      exact readName_plain hname
    · cases h
  · split at h
    · obtain ⟨⟨name, c, rest⟩, hname, h⟩ := bind_eq_some_iff.mp h
      dsimp only at h
      split at h
      · cases h
      · split at h
        · cases h
          exact readName_plain hname
        · split at h
          · cases h
            exact readName_plain hname
          · cases h
    · obtain ⟨⟨name, c, rest⟩, hname, h⟩ := bind_eq_some_iff.mp h
      dsimp only at h
      split at h
      · cases h
        exact ⟨readName_plain hname, fun _ => nofun⟩
      · split at h
        · obtain ⟨⟨labels, rest'⟩, hlabels, h⟩ := bind_eq_some_iff.mp h
          dsimp only at h
          split at h
          · cases h
            exact ⟨readName_plain hname, readLabels_plain hlabels (fun _ => nofun) fun _ => nofun⟩
          · cases h
        · cases h

theorem assemble_plain {line : Line} (h : assemble fs line = some fs') (hline : line.Plain) (hfs : ∀ e ∈ fs, e.Plain) :
    ∀ e ∈ fs', e.Plain := by
  have hinit : ∀ e ∈ fs.dropLast, e.Plain := fun e he => hfs e (dropLast_subset fs he)
  cases hlast : fs.getLast? with
  | none =>
    cases line with
    | help name documentation =>
      simp only [assemble] at h
      cases h
      exact forall_mem_append.mpr ⟨hfs, forall_mem_singleton.mpr ⟨hline, fun _ => nofun⟩⟩
    | type name kind => simp [assemble, hlast] at h
    | sample name labels value => simp [assemble, hlast] at h
  | some e =>
    have he : e.Plain := hfs e (mem_of_getLast? hlast)
    cases line with
    | help name documentation =>
      simp only [assemble] at h
      cases h
      exact forall_mem_append.mpr ⟨hfs, forall_mem_singleton.mpr ⟨hline, fun _ => nofun⟩⟩
    | type name kind =>
      simp only [assemble, hlast] at h
      split at h
      · cases h
        exact forall_mem_append.mpr ⟨hinit, forall_mem_singleton.mpr he⟩
      · cases h
    | sample name labels value =>
      simp only [assemble, hlast] at h
      split at h
      · cases h
        refine forall_mem_append.mpr ⟨hinit, forall_mem_singleton.mpr ⟨he.1, ?_⟩⟩
        exact forall_mem_append.mpr ⟨he.2, forall_mem_singleton.mpr hline.2⟩
      · cases h

theorem parse_plain {text : Text} (h : parse text = some fs) : ∀ e ∈ fs, e.Plain := by
  rw [parse] at h
  split at h
  · next lines _ =>
    obtain ⟨read, hread, hfold⟩ := bind_eq_some_iff.mp h
    have hplain : ∀ line ∈ read, line.Plain := fun line hline =>
      have ⟨_, _, hl⟩ := exists_of_mem_mapM hread hline
      readLine_plain hl
    have hstart : ∀ e ∈ ([] : List Exposed), e.Plain := fun _ => nofun
    generalize ([] : List Exposed) = start at hfold hstart
    clear h hread
    induction read generalizing start with
    | nil =>
      cases hfold
      exact hstart
    | cons line read ih =>
      obtain ⟨hline, hread⟩ := forall_mem_cons.mp hplain
      rw [foldlM_cons] at hfold
      obtain ⟨next, hnext, hfold⟩ := bind_eq_some_iff.mp hfold
      exact ih hread next hfold (assemble_plain hnext hline hstart)
  · cases h

/-- A registry is read back from its text if and only if no name in the text has a newline, and then no other one that
is has the same text. -/
theorem parse_renderText_iff (r : MetricsRegistry) : (parse r.renderText = some r.contents ↔ r.Clean) ∧
    ∀ r' : MetricsRegistry, r.Clean → r'.Clean → r.renderText = r'.renderText → r.contents = r'.contents := by
  refine ⟨⟨fun h f hf => ?_, parse_renderText⟩, fun r' hr hr' heq => ?_⟩
  · obtain ⟨hname, hsamples⟩ := parse_plain h f.exposed (List.mem_map_of_mem hf)
    refine ⟨fun hnewline => absurd (hname _ hnewline) (by decide), fun hne label hlabel hnewline => ?_⟩
    obtain ⟨s, hs⟩ := exists_mem_of_ne_nil _ hne
    have hzip : label ∈ (f.labelNames.zip s.labels).map Prod.fst := by
      rwa [map_fst_zip (f.labels_length s hs).symm.le]
    obtain ⟨pair, hpair, rfl⟩ := List.mem_map.mp hzip
    exact absurd (hsamples _ (List.mem_map_of_mem hs) pair hpair _ hnewline) (by decide)
  · have hsome := parse_renderText hr
    rw [heq, parse_renderText hr'] at hsome
    exact (some.inj hsome).symm

/-- The counter family `a` with a newline behind its name, which is accepted. -/
def newlineFamily : MetricFamily where
  name := ['a', '\n']
  documentation := []
  kind := .counter
  labelNames := []
  samples := []
  name_accepted := rfl
  labels_accepted := rfl
  labels_length := nofun

theorem not_parse_newlineFamily : parse (MetricsRegistry.mk [newlineFamily] (nodup_singleton _)).renderText ≠
      some (MetricsRegistry.mk [newlineFamily] (nodup_singleton _)).contents := by
  decide

end RoundTrip

end LazilyPy.Metrics
