import ScriptEngine.Text.Cluster.Class

/-!
# Clusters

`clusters` divides a text into what a reader takes for single characters, the extended grapheme
clusters of Unicode. Whether a cluster goes on at a character depends on the character before it and,
for flags, pictographs and conjoined consonants, on what has led up to that one; `Context` holds just
that much.
-/

namespace ScriptEngine.Text

/-- How far a run that only a certain character continues has come. -/
inductive Run where
  | absent
  | started
  /-- The run has started, and what links it to the next character has been seen. -/
  | linked
  deriving DecidableEq

/-- What is known of the text before a place. -/
structure Context where
  /-- The class of the last character. -/
  last : ClusterClass
  /-- Whether the flag halves that end the text are an odd number. -/
  oddFlags : Bool
  /-- A pictograph with marks on it, and perhaps a joiner last. -/
  pictograph : Run
  /-- A consonant with marks on it, and perhaps a linker among them. -/
  conjunct : Run

namespace Context

/-- The context at the start of a text: nothing goes on there. -/
def start : Context := ⟨.control, false, .absent, .absent⟩

/-- The context after one more character. -/
def after (x : Context) (c : Char) : Context :=
  let kind := ClusterClass.ofChar c
  let pictograph := match kind with
    | .pictograph => .started
    | .extend => if x.pictograph = .started then .started else .absent
    | .joiner => if x.pictograph = .started then .linked else .absent
    | _ => .absent
  let conjunct := match kind with
    | .consonant => .started
    | .extend | .joiner =>
      -- the zero width non-joiner keeps consonants apart
      if c.toNat = 0x200c then .absent
      else if isLinker c && x.conjunct = .started then .linked
      else x.conjunct
    | _ => .absent
  ⟨kind, kind = .regional && !x.oddFlags, pictograph, conjunct⟩

/-- Whether a character of class `next` belongs to the cluster before it. -/
def joins (x : Context) (next : ClusterClass) : Bool :=
  match x.last, next with
  | .carriageReturn, .lineFeed => true
  | .control, _ | .carriageReturn, _ | .lineFeed, _ => false
  | _, .control | _, .carriageReturn | _, .lineFeed => false
  | .leading, .leading | .leading, .vowel => true
  | .leading, .openSyllable | .leading, .closedSyllable => true
  | .openSyllable, .vowel | .openSyllable, .trailing => true
  | .vowel, .vowel | .vowel, .trailing => true
  | .closedSyllable, .trailing | .trailing, .trailing => true
  | _, .extend | _, .joiner | _, .spacing => true
  | .prepend, _ => true
  | _, .consonant => x.conjunct = .linked
  | _, .pictograph => x.pictograph = .linked
  | .regional, .regional => x.oddFlags
  | _, _ => false

end Context

/-- The clusters of a text whose first cluster has started with `current`, the last character first. -/
def clustersFrom (x : Context) (current : List Char) : List Char → List (List Char)
  | [] => [current.reverse]
  | c :: rest =>
    if x.joins (.ofChar c) then clustersFrom (x.after c) (c :: current) rest
    else current.reverse :: clustersFrom (x.after c) [c] rest

/-- The clusters of a text in order. -/
def clusters : List Char → List (List Char)
  | [] => []
  | c :: rest => clustersFrom (Context.start.after c) [c] rest

end ScriptEngine.Text
