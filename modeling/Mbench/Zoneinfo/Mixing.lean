import Mbench.Zoneinfo.LineMachine
import Mbench.Zoneinfo.Sections

/-! Which section of the file the numbers of a printed line come from. -/

namespace Mbench.Zoneinfo
open Library

inductive Count
  | free
  | low
  | inactive
  deriving DecidableEq

def Count.Gives (linebuf : List Char) (value : Int) : Count → Prop
  | free => sscanf (skipBlanks linebuf) "pages free %lld" = [value]
  | low => ((strstr linebuf "low".toList).map fun ptr => sscanf ptr "low %lld") = some [value]
  | inactive => sscanf (skipBlanks linebuf) "nr_zone_inactive_file %lld" = [value] ∨
      sscanf (skipBlanks linebuf) "nr_inactive_file %lld" = [value]

def Pass.reading (pass : Pass) : Count → Option Reading
  | .free => pass.free
  | .low => pass.low
  | .inactive => pass.inactive

def Pass.put (pass : Pass) (cntGot : Nat) (reading : Reading) : Count → Pass
  | .free => { pass with free := some reading, cntGot }
  | .low => { pass with low := some reading, cntGot }
  | .inactive => { pass with inactive := some reading, cntGot }

section
variable (lines : List (List Char))

def SameSection (header position : Nat) : Prop :=
  ∀ between text, header < between → between ≤ position → lines[between]? = some text → zoneHeader text = none

/-- The pass began at the header of a Normal section of its node. -/
def Pass.AtNormal (pass : Pass) : Prop :=
  ∃ text, lines[pass.header]? = some text ∧ zoneHeader text = some (pass.zoneid, "Normal".toList)

/-- A line that gives the number, in the section that begins at `header`. -/
structure Reading.InSection (header : Nat) (count : Count) (reading : Reading) : Prop where
  after : header < reading.line
  same : SameSection lines header reading.line
  given : ∃ text, lines[reading.line]? = some text ∧ count.Gives text reading.value

/-- Id and numbers come from one Normal section. -/
structure Pass.Unmixed (pass : Pass) : Prop where
  atNormal : pass.AtNormal lines
  inSection : ∀ count, ∃ reading, pass.reading count = some reading ∧ reading.InSection lines pass.header count

structure Pass.Sound (position : Nat) (pass : Pass) : Prop where
  begun : pass.header < position
  read : ∀ count reading, pass.reading count = some reading →
    pass.header < reading.line ∧ reading.line < position ∧
      ∃ text, lines[reading.line]? = some text ∧ count.Gives text reading.value
  ordered : pass.low.isSome → pass.free.isSome

end

/-! The files that keep their sections apart. Behind a line that the outer loop takes for a header, a count is an inactive
count, or a low that stands within three lines behind the free pages. -/

/-- The line has "pages free" and a number in it, as the code wants it. -/
def FreeLine (text : List Char) : Prop :=
  contains (skipBlanks text) "pages free" = true ∧ ∃ value, Count.free.Gives text value

/-- The line has "pages free" in it, but no number. -/
def WrongSection (text : List Char) : Prop :=
  contains (skipBlanks text) "pages free" = true ∧ ∀ value, ¬Count.free.Gives text value

def NoLow (near : List (List Char)) : Prop := ∀ other ∈ near, ∀ value, ¬Count.low.Gives other value

/-- Lines behind a header, with the counts in them: as long as there are fewer than two, the next line is one without
"pages free", with or without an inactive count, or the free pages with the lines near them. Behind an inactive count that is
not negative no other one is looked for. -/
inductive Body : List (Count × Int) → List (List Char) → Prop
  | nil : Body [] []
  | other {counts : List (Count × Int)} {texts : List (List Char)} (text : List Char) : Body counts texts → counts.length < 2 →
      contains (skipBlanks text) "pages free" = false →
      (∀ value, Count.inactive.Gives text value → ∃ earlier, (Count.inactive, earlier) ∈ counts ∧ 0 ≤ earlier) →
      Body counts (texts ++ [text])
  | inactive {counts : List (Count × Int)} {texts : List (List Char)} (text : List Char) (value : Int) :
      Body counts texts → counts.length < 2 →
      contains (skipBlanks text) "pages free" = false → Count.inactive.Gives text value →
      (∀ earlier, (Count.inactive, earlier) ∈ counts → earlier < 0) →
      Body (counts ++ [(.inactive, value)]) (texts ++ [text])
  | low {counts : List (Count × Int)} {texts : List (List Char)} (text : List Char) (near : List (List Char))
      (last : List Char) (value : Int) : Body counts texts → counts.length < 2 →
      FreeLine text → near.length < 3 → NoLow near → Count.low.Gives last value →
      Body (counts ++ [(.low, value)]) (texts ++ text :: (near ++ [last]))
  | noLow {counts : List (Count × Int)} {texts : List (List Char)} (text : List Char) (near : List (List Char)) :
      Body counts texts → counts.length < 2 →
      FreeLine text → near.length = 3 → NoLow near →
      Body counts (texts ++ text :: near)

/-- The end of a file, with nothing in it or with the free pages and too few lines near them. -/
inductive CutOff : List (List Char) → Prop
  | nil : CutOff []
  | free (text : List Char) (near : List (List Char)) : FreeLine text → near.length < 3 → NoLow near → CutOff (text :: near)

/-- The lines of a file in which two counts behind a header always are a low and an inactive count of its own Normal section. -/
inductive KeptApart : List (List Char) → Prop
  | nil : KeptApart []
  | skip {rest : List (List Char)} (text : List Char) : passStart text = none → KeptApart rest → KeptApart (text :: rest)
  | complete {counts : List (Count × Int)} {texts rest : List (List Char)} (text : List Char) (zoneid : Int) :
      zoneHeader text = some (zoneid, "Normal".toList) → Body counts texts →
      (counts.map Prod.fst = [.low, .inactive] ∨ counts.map Prod.fst = [.inactive, .low]) →
      (∀ other ∈ texts, zoneHeader other = none) → KeptApart rest → KeptApart (text :: (texts ++ rest))
  | wrongSection {counts : List (Count × Int)} {texts rest : List (List Char)} (text : List Char) (zoneid : Int)
      (wrong : List Char) : passStart text = some zoneid → Body counts texts → counts.length < 2 → WrongSection wrong →
      KeptApart rest → KeptApart (text :: (texts ++ wrong :: rest))
  | unfinished {counts : List (Count × Int)} {texts rest : List (List Char)} (text : List Char) (zoneid : Int) :
      passStart text = some zoneid → Body counts texts → counts.length < 2 → CutOff rest → KeptApart (text :: (texts ++ rest))

/-! The lines, as the machine takes them. -/

theorem named_apart {ptr : List Char} {value other : Int}
    (first : sscanf ptr ("nr_zone_inactive_file" ++ " %lld") = [value]) :
    sscanf ptr ("nr_inactive_file" ++ " %lld") ≠ [other] := by
  intro second
  rw [sscanf_named (by decide)] at first second
  split at first
  · split at second
    next zone node =>
      obtain ⟨rest, ptr_eq⟩ := List.isPrefixOf_iff_prefix.mp zone
      obtain ⟨rest', ptr_eq'⟩ := List.isPrefixOf_iff_prefix.mp node
      have fourth : some 'z' = some 'i' := congrArg (fun ptr => ptr[3]?) (ptr_eq.trans ptr_eq'.symm)
      exact absurd fourth (by decide)
    · cases second
  · cases first

section
variable {lines : List (List Char)} {position header sub : Nat} {text : List Char} {zoneid value : Int} {pass : Pass}
  {counts : List (Count × Int)} {name : String} {ptr : List Char}

theorem Pass.readInactive_idle (idle : ∀ value, sscanf ptr (name ++ " %lld") = [value] → 0 ≤ pass.fields.nrInactiveFile) :
    pass.readInactive name ptr position = pass := by
  unfold Pass.readInactive
  split
  next looked =>
    have missing : pass.fields.nrInactiveFile < 0 := by
      rw [Bool.and_eq_true, decide_eq_true_eq] at looked
      exact looked.1
    split
    next value given => exact absurd (idle value given) (Int.not_le.mpr missing)
    next => rfl
  next => rfl

theorem Pass.readInactive_given (plain : plainText name.toList = true) (missing : pass.fields.nrInactiveFile < 0)
    (given : sscanf ptr (name ++ " %lld") = [value]) :
    pass.readInactive name ptr position = pass.put (pass.cntGot + 1) { value, line := position } .inactive := by
  have here : contains ptr name = true := by
    rw [sscanf_named plain] at given
    split at given
    next front => rw [contains, strstr_prefix (List.isPrefixOf_iff_prefix.mp front), Option.isSome_some]
    next => cases given
  rw [Pass.readInactive, here, decide_eq_true missing, given]
  rfl

theorem zone_format : "nr_zone_inactive_file" ++ " %lld" = "nr_zone_inactive_file %lld" := by decide

theorem node_format : "nr_inactive_file" ++ " %lld" = "nr_inactive_file %lld" := by decide

theorem Pass.readInactives_idle (idle : ∀ value, Count.inactive.Gives text value → 0 ≤ pass.fields.nrInactiveFile) :
    pass.readInactives text position = pass := by
  have zone : ∀ value, sscanf (skipBlanks text) ("nr_zone_inactive_file" ++ " %lld") = [value] → 0 ≤ pass.fields.nrInactiveFile := by
    intro value given
    rw [zone_format] at given
    exact idle value (Or.inl given)
  have node : ∀ value, sscanf (skipBlanks text) ("nr_inactive_file" ++ " %lld") = [value] → 0 ≤ pass.fields.nrInactiveFile := by
    intro value given
    rw [node_format] at given
    exact idle value (Or.inr given)
  rw [Pass.readInactives, Pass.readInactive_idle zone, Pass.readInactive_idle node]

theorem Pass.readInactives_given (missing : pass.fields.nrInactiveFile < 0) (given : Count.inactive.Gives text value) :
    pass.readInactives text position = pass.put (pass.cntGot + 1) { value, line := position } .inactive := by
  rw [Pass.readInactives]
  cases given with
  | inl zone =>
    rw [Pass.readInactive_given (by decide) missing (by rw [zone_format]; exact zone)]
    refine Pass.readInactive_idle fun other node => ?_
    rw [node_format] at node
    exact absurd node (named_apart zone)
  | inr node =>
    have apart : ∀ other, sscanf (skipBlanks text) ("nr_zone_inactive_file" ++ " %lld") = [other] → 0 ≤ pass.fields.nrInactiveFile := by
      intro other zone
      rw [zone_format] at zone
      exact absurd node (named_apart zone)
    rw [Pass.readInactive_idle apart]
    exact Pass.readInactive_given (by decide) missing (by rw [node_format]; exact node)

theorem readLine_other (plain : contains (skipBlanks text) "pages free" = false)
    (idle : ∀ value, Count.inactive.Gives text value → 0 ≤ pass.fields.nrInactiveFile) :
    readLine position text (.zone pass) = pass.settle := by
  rw [readLine, plain, Pass.readInactives_idle idle]
  rfl

theorem readLine_inactive (plain : contains (skipBlanks text) "pages free" = false)
    (missing : pass.fields.nrInactiveFile < 0) (given : Count.inactive.Gives text value) :
    readLine position text (.zone pass) = (pass.put (pass.cntGot + 1) { value, line := position } .inactive).settle := by
  rw [readLine, plain, Pass.readInactives_given missing given]
  rfl

theorem readLine_free (here : contains (skipBlanks text) "pages free" = true) (given : Count.free.Gives text value) :
    readLine position text (.zone pass) = (.low 0 (pass.put pass.cntGot { value, line := position } .free), none) := by
  have values : sscanf (skipBlanks text) "pages free %lld" = [value] := given
  rw [readLine, if_pos here, values, Pass.readInactives_pagesFree values]
  rfl

theorem readLine_wrong (wrong : WrongSection text) : readLine position text (.zone pass) = (.outer, none) := by
  rw [readLine, if_pos wrong.1]
  split
  next value given => exact absurd given (wrong.2 value)
  next => rfl

theorem readLine_low (given : Count.low.Gives text value) : readLine position text (.low sub pass) =
    (pass.put (pass.cntGot + 1) { value, line := position } .low).settle := by
  have values : ((strstr text "low".toList).map fun ptr => sscanf ptr "low %lld") = some [value] := given
  rw [readLine, values]
  rfl

theorem readLine_noLow (none_ : ∀ value, ¬Count.low.Gives text value) : readLine position text (.low sub pass) =
    if sub + 1 < 3 then (.low (sub + 1) pass, none) else pass.settle := by
  rw [readLine]
  split
  next value given => exact absurd given (none_ value)
  next => rfl

theorem yields_near {near : List (List Char)} (none_ : NoLow near)
    (few : sub + near.length < 3) : Yields readLine position (.low sub pass) near [] (.low (sub + near.length) pass) := by
  induction near generalizing sub position with
  | nil => exact Yields.nil
  | cons other near ih =>
    rw [List.length_cons] at few
    have turn : readLine position other (.low sub pass) = (.low (sub + 1) pass, none) := by
      rw [readLine_noLow (none_ other List.mem_cons_self), if_pos (by omega)]
    have later : Yields readLine (position + 1) (.low (sub + 1) pass) near [] (.low (sub + 1 + near.length) pass) :=
      ih (fun next member => none_ next (List.mem_cons_of_mem other member)) (by omega)
    rw [Nat.add_assoc, Nat.add_comm 1] at later
    exact (Yields.symbol turn).append later

end

/-! What a pass has read. -/

section
variable {lines : List (List Char)} {position line header : Nat} {text : List Char} {zoneid value : Int} {pass : Pass}
  {counts : List (Count × Int)} {count : Count}

theorem Pass.Sound.start (zoneid : Int) : (Pass.start position zoneid).Sound lines (position + 1) where
  begun := Nat.lt_succ_self position
  read count reading given := by cases count <;> cases given
  ordered given := by cases given

theorem Pass.Sound.next {next : Pass} (sound : pass.Sound lines position) (here : lines[position]? = some text)
    (header : next.header = pass.header)
    (fresh : ∀ count reading, next.reading count = some reading →
      pass.reading count = some reading ∨ reading.line = position ∧ count.Gives text reading.value)
    (ordered : next.low.isSome → next.free.isSome) : next.Sound lines (position + 1) where
  begun := by rw [header]; exact Nat.lt_succ_of_lt sound.begun
  read count reading given := by
    rw [header]
    cases fresh count reading given with
    | inl old =>
      obtain ⟨after, before, source⟩ := sound.read count reading old
      exact ⟨after, Nat.lt_succ_of_lt before, source⟩
    | inr new =>
      rw [new.1]
      exact ⟨sound.begun, Nat.lt_succ_self position, text, here, new.2⟩
  ordered := ordered

theorem Pass.Sound.mono {later : Nat} (sound : pass.Sound lines position) (less : position ≤ later) : pass.Sound lines later where
  begun := sound.begun.trans_le less
  read count reading given := by
    obtain ⟨after, before, source⟩ := sound.read count reading given
    exact ⟨after, before.trans_le less, source⟩
  ordered := sound.ordered

theorem Pass.reading_put (pass : Pass) (cntGot : Nat) (reading : Reading) (count other : Count) :
    (pass.put cntGot reading count).reading other = if other = count then some reading else pass.reading other := by
  cases count <;> cases other <;> rfl

theorem Pass.header_put (pass : Pass) (cntGot : Nat) (reading : Reading) (count : Count) :
    (pass.put cntGot reading count).header = pass.header := by
  cases count <;> rfl

theorem Pass.zoneid_put (pass : Pass) (cntGot : Nat) (reading : Reading) (count : Count) :
    (pass.put cntGot reading count).zoneid = pass.zoneid := by
  cases count <;> rfl

theorem Pass.cntGot_put (pass : Pass) (cntGot : Nat) (reading : Reading) (count : Count) :
    (pass.put cntGot reading count).cntGot = cntGot := by
  cases count <;> rfl

theorem Pass.Sound.put (sound : pass.Sound lines position) (here : lines[position]? = some text)
    (given : count.Gives text value) (ordered : count = .low → pass.free.isSome) (cntGot : Nat) :
    (pass.put cntGot { value, line := position } count).Sound lines (position + 1) := by
  apply sound.next here (pass.header_put _ _ count)
  · intro other reading found
    rw [Pass.reading_put] at found
    by_cases same : other = count
    · rw [if_pos same] at found
      cases found
      exact Or.inr ⟨rfl, same ▸ given⟩
    · rw [if_neg same] at found
      exact Or.inl found
  · cases count with
    | free => exact fun _ => rfl
    | low => exact fun _ => ordered rfl
    | inactive => exact sound.ordered

/-- The pass that began at `header` and has got these counts before `position`. -/
structure Pass.Stands (lines : List (List Char)) (header : Nat) (zoneid : Int) (position : Nat) (counts : List (Count × Int))
    (pass : Pass) : Prop where
  header_eq : pass.header = header
  zoneid_eq : pass.zoneid = zoneid
  sound : pass.Sound lines position
  cntGot : pass.cntGot = counts.length
  got : ∀ count, count ≠ .free → ((pass.reading count).isSome ↔ count ∈ counts.map Prod.fst)
  missing : pass.fields.nrInactiveFile < 0 ↔ ∀ value, (Count.inactive, value) ∈ counts → value < 0
  fresh : counts.length = 2 → ∃ count reading, pass.reading count = some reading ∧ reading.line + 1 = position

theorem Pass.Stands.start (header : Nat) (zoneid : Int) :
    (Pass.start header zoneid).Stands lines header zoneid (header + 1) [] where
  header_eq := rfl
  zoneid_eq := rfl
  sound := Pass.Sound.start zoneid
  cntGot := rfl
  got count _ := by cases count <;> exact iff_of_false Bool.false_ne_true List.not_mem_nil
  missing := iff_of_true (show (-1 : Int) < 0 by decide) fun _ member => absurd member List.not_mem_nil
  fresh two := absurd two (by decide)

theorem Pass.Stands.mono {later : Nat} (stands : pass.Stands lines header zoneid position counts) (more : counts.length < 2)
    (less : position ≤ later) : pass.Stands lines header zoneid later counts :=
  { stands with
    sound := stands.sound.mono less
    fresh := fun two => absurd two more.ne }

theorem Pass.Stands.putFree (stands : pass.Stands lines header zoneid position counts) (more : counts.length < 2)
    (here : lines[position]? = some text) (given : Count.free.Gives text value) :
    (pass.put pass.cntGot { value, line := position } .free).Stands lines header zoneid (position + 1) counts where
  header_eq := stands.header_eq
  zoneid_eq := stands.zoneid_eq
  sound := stands.sound.put here given (fun low => nomatch low) _
  cntGot := stands.cntGot
  got count other := by
    rw [Pass.reading_put, if_neg other]
    exact stands.got count other
  missing := stands.missing
  fresh two := absurd two more.ne

theorem Pass.Stands.put (stands : pass.Stands lines header zoneid position counts)
    (here : lines[position]? = some text) (given : count.Gives text value) (counted : count ≠ .free)
    (ordered : count = .low → pass.free.isSome)
    (sought : count = .inactive → ∀ earlier, (Count.inactive, earlier) ∈ counts → earlier < 0) :
    (pass.put (pass.cntGot + 1) { value, line := position } count).Stands lines header zoneid (position + 1)
      (counts ++ [(count, value)]) where
  header_eq := (pass.header_put _ _ count).trans stands.header_eq
  zoneid_eq := (pass.zoneid_put _ _ count).trans stands.zoneid_eq
  sound := stands.sound.put here given ordered _
  cntGot := by rw [Pass.cntGot_put, stands.cntGot, List.length_append, List.length_singleton]
  got other counted := by
    rw [Pass.reading_put, List.map_append, List.mem_append, List.map_singleton, List.mem_singleton]
    by_cases same : other = count
    · rw [if_pos same]
      exact iff_of_true rfl (Or.inr same)
    · rw [if_neg same, stands.got other counted]
      exact (or_iff_left same).symm
  missing := by
    simp only [List.mem_append, List.mem_singleton, Prod.mk.injEq]
    cases count with
    | free => exact absurd rfl counted
    | low =>
      change pass.fields.nrInactiveFile < 0 ↔ _
      simpa using stands.missing
    | inactive =>
      constructor
      · rintro negative other (earlier | ⟨-, rfl⟩)
        · exact sought rfl other earlier
        · exact negative
      · intro all
        exact all value (Or.inr ⟨rfl, rfl⟩)
  fresh _ := ⟨count, { value, line := position }, by rw [Pass.reading_put, if_pos rfl], rfl⟩

/-! What the machine makes of the lines behind a header. -/

theorem getElem?_between {before after : List (List Char)} (split : lines = before ++ text :: after) :
    lines[before.length]? = some text := by
  rw [split, List.getElem?_append_right le_rfl, Nat.sub_self]
  rfl

theorem Pass.Stands.settle (stands : pass.Stands lines header zoneid position counts) (more : counts.length < 2) :
    pass.settle = (.zone pass, none) :=
  Pass.settle_next (stands.cntGot.trans_lt more)

theorem Pass.Stands.free {before near rest : List (List Char)} (stands : pass.Stands lines header zoneid before.length counts)
    (more : counts.length < 2) (split : lines = before ++ text :: rest) (free : FreeLine text) (few : near.length < 3)
    (none_ : NoLow near) :
    ∃ next : Pass, next.Stands lines header zoneid (before.length + 1) counts ∧ next.free.isSome ∧
      Yields readLine before.length (.zone pass) (text :: near) [] (.low near.length next) := by
  obtain ⟨here, value, given⟩ := free
  have next := stands.putFree more (getElem?_between split) given
  generalize changed : pass.put pass.cntGot { value, line := before.length } .free = last at next
  have turn : readLine before.length text (.zone pass) = (.low 0 last, none) := by
    rw [readLine_free here given, changed]
  have later : Yields readLine (before.length + 1) (.low 0 last) near [] (.low (0 + near.length) last) :=
    yields_near none_ (by omega)
  rw [Nat.zero_add] at later
  exact ⟨last, next, by rw [← changed]; rfl, (Yields.symbol turn).append later⟩

def Pass.Reads (lines : List (List Char)) (header : Nat) (zoneid : Int) (before : List (List Char)) (pass : Pass)
    (texts : List (List Char)) (counts : List (Count × Int)) : Prop :=
  ∃ last : Pass, last.Stands lines header zoneid (before ++ texts).length counts ∧
    Yields readLine before.length (.zone pass) texts last.settle.2.toList last.settle.1

theorem Pass.Reads.append {before texts piece : List (List Char)} {later : List (Count × Int)}
    (reads : pass.Reads lines header zoneid before texts counts) (more : counts.length < 2)
    (onward : ∀ last : Pass, last.Stands lines header zoneid (before ++ texts).length counts →
      last.Reads lines header zoneid (before ++ texts) piece later) :
    pass.Reads lines header zoneid before (texts ++ piece) later := by
  obtain ⟨last, stands, front⟩ := reads
  obtain ⟨next, ends, back⟩ := onward last stands
  rw [stands.settle more] at front
  rw [List.append_assoc] at ends
  rw [List.length_append] at back
  exact ⟨next, ends, front.append back⟩

section
variable {before near rest : List (List Char)} {last : List Char}

theorem Pass.Stands.reads_other (stands : pass.Stands lines header zoneid before.length counts) (more : counts.length < 2)
    (plain : contains (skipBlanks text) "pages free" = false)
    (idle : ∀ value, Count.inactive.Gives text value → ∃ earlier, (Count.inactive, earlier) ∈ counts ∧ 0 ≤ earlier) :
    pass.Reads lines header zoneid before [text] counts := by
  have turn : readLine before.length text (.zone pass) = pass.settle := by
    apply readLine_other plain
    intro value given
    obtain ⟨earlier, member, nonneg⟩ := idle value given
    by_contra negative
    have below := stands.missing.mp (Int.not_le.mp negative) earlier member
    omega
  exact ⟨pass, stands.mono more (by simp), Yields.symbol turn⟩

theorem Pass.Stands.reads_inactive (stands : pass.Stands lines header zoneid before.length counts)
    (split : lines = before ++ ([text] ++ rest)) (plain : contains (skipBlanks text) "pages free" = false)
    (given : Count.inactive.Gives text value) (sought : ∀ earlier, (Count.inactive, earlier) ∈ counts → earlier < 0) :
    pass.Reads lines header zoneid before [text] (counts ++ [(.inactive, value)]) := by
  have next := stands.put (getElem?_between split) given (by decide) (fun low => nomatch low) fun _ => sought
  have turn : readLine before.length text (.zone pass) =
      (pass.put (pass.cntGot + 1) { value, line := before.length } .inactive).settle :=
    readLine_inactive plain (stands.missing.mpr sought) given
  rw [← List.length_singleton, ← List.length_append] at next
  exact ⟨_, next, Yields.symbol turn⟩

theorem Pass.Stands.reads_low (stands : pass.Stands lines header zoneid before.length counts) (more : counts.length < 2)
    (split : lines = before ++ (text :: (near ++ [last]) ++ rest)) (free : FreeLine text) (few : near.length < 3) (none_ : NoLow near)
    (given : Count.low.Gives last value) :
    pass.Reads lines header zoneid before (text :: (near ++ [last])) (counts ++ [(.low, value)]) := by
  obtain ⟨mid, midStands, read, window⟩ := stands.free more split free few none_
  have there : lines = before ++ text :: near ++ last :: rest := by
    rw [split]
    simp
  have upTo : mid.Stands lines header zoneid (before ++ text :: near).length counts := midStands.mono more (by simp)
  have next := upTo.put (getElem?_between there) given (by decide) (fun _ => read) nofun
  have turn : readLine (before.length + (text :: near).length) last (.low near.length mid) =
      (mid.put (mid.cntGot + 1) { value, line := (before ++ text :: near).length } .low).settle := by
    rw [← List.length_append]
    exact readLine_low given
  have whole : (before ++ text :: (near ++ [last])).length = (before ++ text :: near).length + 1 := by
    simp
    omega
  rw [← whole] at next
  exact ⟨_, next, window.append (Yields.symbol turn)⟩

theorem Pass.Stands.reads_noLow (stands : pass.Stands lines header zoneid before.length counts) (more : counts.length < 2)
    (split : lines = before ++ (text :: (near ++ [last]) ++ rest)) (free : FreeLine text) (two : near.length = 2)
    (none_ : NoLow (near ++ [last])) : pass.Reads lines header zoneid before (text :: (near ++ [last])) counts := by
  obtain ⟨mid, midStands, _, window⟩ := stands.free more split free (show near.length < 3 by omega)
    fun other member => none_ other (List.mem_append_left _ member)
  have turn : readLine (before.length + (text :: near).length) last (.low near.length mid) = mid.settle := by
    rw [readLine_noLow (none_ last (by simp)), if_neg (by omega)]
  exact ⟨mid, midStands.mono more (by simp), window.append (Yields.symbol turn)⟩

end

theorem Body.run {texts before rest : List (List Char)} (body : Body counts texts) (split : lines = before ++ (texts ++ rest))
    (start : pass.Stands lines header zoneid before.length []) : pass.Reads lines header zoneid before texts counts := by
  induction body generalizing rest with
  | nil =>
    refine ⟨pass, by rwa [List.append_nil], ?_⟩
    rw [start.settle Nat.zero_lt_two]
    exact Yields.nil
  | other text front more plain idle ih =>
    rw [List.append_assoc] at split
    exact (ih split).append more fun last stands => stands.reads_other more plain idle
  | inactive text value front more plain given sought ih =>
    rw [List.append_assoc] at split
    exact (ih split).append more fun last stands =>
      stands.reads_inactive (split.trans (List.append_assoc _ _ _).symm) plain given sought
  | low text near last value front more free few none_ given ih =>
    rw [List.append_assoc] at split
    exact (ih split).append more fun first stands =>
      stands.reads_low more (split.trans (List.append_assoc _ _ _).symm) free few none_ given
  | noLow text near front more free three none_ ih =>
    obtain ⟨near, third, rfl⟩ : ∃ front third, near = front ++ [third] :=
      ⟨_, _, (List.dropLast_append_getLast (List.ne_nil_of_length_pos (by omega))).symm⟩
    rw [List.length_append, List.length_singleton] at three
    rw [List.append_assoc] at split
    exact (ih split).append more fun last stands =>
      stands.reads_noLow more (split.trans (List.append_assoc _ _ _).symm) free (by omega) none_

end

/-! Each file is read in one of the ways of `KeptApart`, or mixes sections. -/

section
variable {lines : List (List Char)} {position header : Nat} {text : List Char} {zoneid value : Int} {pass : Pass}
  {counts : List (Count × Int)} {count : Count}

theorem Body.length_le {texts : List (List Char)} (body : Body counts texts) : counts.length ≤ 2 := by
  cases body with
  | nil => exact Nat.zero_le 2
  | other => exact Nat.le_of_lt ‹_›
  | inactive =>
    rw [List.length_append]
    exact Nat.succ_le_of_lt ‹_›
  | low =>
    rw [List.length_append]
    exact Nat.succ_le_of_lt ‹_›
  | noLow => exact Nat.le_of_lt ‹_›

theorem Body.counted {texts : List (List Char)} (body : Body counts texts) : ∀ count ∈ counts.map Prod.fst, count ≠ .free := by
  induction body with
  | nil => nofun
  | other => assumption
  | inactive _ _ _ _ _ _ _ ih =>
    simp only [List.map_append, List.mem_append, List.map_singleton, List.mem_singleton]
    rintro count (earlier | rfl)
    · exact ih count earlier
    · decide
  | low _ _ _ _ _ _ _ _ _ _ ih =>
    simp only [List.map_append, List.mem_append, List.map_singleton, List.mem_singleton]
    rintro count (earlier | rfl)
    · exact ih count earlier
    · decide
  | noLow => assumption

theorem near_cases (size : Nat) (texts : List (List Char)) :
    (∃ near last value rest, texts = near ++ last :: rest ∧ near.length < size ∧ NoLow near ∧ Count.low.Gives last value) ∨
      (∃ near rest, texts = near ++ rest ∧ near.length = size ∧ NoLow near) ∨ texts.length < size ∧ NoLow texts := by
  induction size generalizing texts with
  | zero => exact Or.inr (Or.inl ⟨[], texts, rfl, rfl, nofun⟩)
  | succ size ih =>
    cases texts with
    | nil => exact Or.inr (Or.inr ⟨Nat.succ_pos size, nofun⟩)
    | cons text texts =>
      by_cases low : ∃ value, Count.low.Gives text value
      · obtain ⟨value, given⟩ := low
        exact Or.inl ⟨[], text, value, texts, rfl, Nat.succ_pos size, nofun, given⟩
      · have extend {near : List (List Char)} (none_ : NoLow near) : NoLow (text :: near) :=
          List.forall_mem_cons.mpr ⟨not_exists.mp low, none_⟩
        rcases ih texts with ⟨near, last, value, rest, rfl, few, none_, given⟩ | ⟨near, rest, rfl, all, none_⟩ | ⟨few, none_⟩
        · exact Or.inl ⟨text :: near, last, value, rest, rfl, Nat.succ_lt_succ few, extend none_, given⟩
        · exact Or.inr (Or.inl ⟨text :: near, rest, rfl, congrArg Nat.succ all, extend none_⟩)
        · exact Or.inr (Or.inr ⟨Nat.succ_lt_succ few, extend none_⟩)

theorem Body.next {front : List (List Char)} (body : Body counts front) (more : counts.length < 2) (text : List Char)
    (texts : List (List Char)) :
    (∃ counts' piece rest, text :: texts = piece ++ rest ∧ piece ≠ [] ∧ Body counts' (front ++ piece)) ∨
      WrongSection text ∨ CutOff (text :: texts) := by
  cases plain : contains (skipBlanks text) "pages free" with
  | false =>
    left
    by_cases given : ∃ value, Count.inactive.Gives text value ∧ ∀ earlier, (Count.inactive, earlier) ∈ counts → earlier < 0
    · obtain ⟨value, given, sought⟩ := given
      exact ⟨_, [text], texts, rfl, List.cons_ne_nil _ _, body.inactive text value more plain given sought⟩
    · refine ⟨_, [text], texts, rfl, List.cons_ne_nil _ _, body.other text more plain fun value gives => ?_⟩
      by_contra none_
      refine given ⟨value, gives, fun earlier member => ?_⟩
      by_contra nonneg
      exact none_ ⟨earlier, member, Int.not_lt.mp nonneg⟩
  | true =>
    by_cases given : ∃ value, Count.free.Gives text value
    · have free : FreeLine text := ⟨plain, given⟩
      rcases near_cases 3 texts with ⟨near, last, value, rest, rfl, few, none_, low⟩ | ⟨near, rest, rfl, three, none_⟩ |
        ⟨few, none_⟩
      · exact Or.inl ⟨_, text :: (near ++ [last]), rest, by simp, List.cons_ne_nil _ _,
          body.low text near last value more free few none_ low⟩
      · exact Or.inl ⟨_, text :: near, rest, rfl, List.cons_ne_nil _ _, body.noLow text near more free three none_⟩
      · exact Or.inr (Or.inr (.free text texts free few none_))
    · exact Or.inr (Or.inl ⟨plain, not_exists.mp given⟩)

/-- The lines behind a header go on to a second count, to a wrong section or to the end of the file. -/
theorem Body.complete {front : List (List Char)} (body : Body counts front) (more : counts.length < 2)
    (texts : List (List Char)) :
    ∃ counts' texts' rest, front ++ texts = texts' ++ rest ∧ Body counts' texts' ∧
      (counts'.length = 2 ∨ counts'.length < 2 ∧ ((∃ wrong after, rest = wrong :: after ∧ WrongSection wrong) ∨ CutOff rest)) := by
  induction length : texts.length using Nat.strong_induction_on generalizing front counts texts with
  | _ size ih =>
    cases texts with
    | nil => exact ⟨counts, front, [], rfl, body, Or.inr ⟨more, Or.inr .nil⟩⟩
    | cons text texts =>
      rcases body.next more text texts with ⟨counts', piece, rest, split, some_, longer⟩ | wrong | cut
      · rw [split, ← List.append_assoc]
        by_cases again : counts'.length < 2
        · have shorter : rest.length < size := by
            have positive := List.length_pos_of_ne_nil some_
            rw [← length, split, List.length_append]
            omega
          exact ih rest.length shorter longer again rest rfl
        · have few := longer.length_le
          exact ⟨counts', front ++ piece, rest, rfl, longer, Or.inl (by omega)⟩
      · exact ⟨counts, front, text :: texts, rfl, body, Or.inr ⟨more, Or.inl ⟨text, texts, rfl, wrong⟩⟩⟩
      · exact ⟨counts, front, text :: texts, rfl, body, Or.inr ⟨more, Or.inr cut⟩⟩

theorem Body.run_header {before texts rest : List (List Char)} (body : Body counts texts)
    (split : lines = before ++ text :: (texts ++ rest)) (start : passStart text = some zoneid) :
    ∃ last : Pass, last.Stands lines before.length zoneid (before ++ text :: texts).length counts ∧
      Yields readLine before.length .outer (text :: texts) last.settle.2.toList last.settle.1 := by
  have first : readLine before.length text .outer = (.zone (Pass.start before.length zoneid), none) := by
    rw [readLine, start]
  have length : (before ++ [text]).length = before.length + 1 := List.length_append
  have stands : (Pass.start before.length zoneid).Stands lines before.length zoneid (before ++ [text]).length [] := by
    rw [length]
    exact Pass.Stands.start before.length zoneid
  rw [List.append_cons] at split
  obtain ⟨last, after, yields⟩ := body.run split stands
  rw [← List.append_cons] at after
  rw [length] at yields
  exact ⟨last, after, (Yields.symbol first).append yields⟩

theorem sameSection_iff {before texts rest : List (List Char)} (split : lines = before ++ text :: (texts ++ rest)) :
    SameSection lines before.length (before.length + texts.length) ↔ ∀ other ∈ texts, zoneHeader other = none := by
  have at_ (index : Nat) : lines[before.length + 1 + index]? = (texts ++ rest)[index]? := by
    rw [split, List.getElem?_append_right (by omega), show before.length + 1 + index - before.length = index + 1 by omega]
    rfl
  constructor
  · intro same other member
    obtain ⟨index, inside, rfl⟩ := List.getElem_of_mem member
    refine same (before.length + 1 + index) _ (by omega) (by omega) ?_
    rw [at_, List.getElem?_append_left inside, List.getElem?_eq_getElem inside]
  · intro none_ between other after upto found
    obtain ⟨index, rfl⟩ := Nat.exists_eq_add_of_le (show before.length + 1 ≤ between from after)
    rw [at_, List.getElem?_append_left (by omega)] at found
    exact none_ other (List.mem_of_getElem? found)

theorem counts_cases (two : counts.length = 2) (counted : ∀ count ∈ counts.map Prod.fst, count ≠ .free) :
    (Count.low ∈ counts.map Prod.fst ∧ Count.inactive ∈ counts.map Prod.fst) ↔
      counts.map Prod.fst = [.low, .inactive] ∨ counts.map Prod.fst = [.inactive, .low] := by
  rw [← List.length_map Prod.fst] at two
  obtain ⟨first, second, both⟩ := List.length_eq_two.mp two
  rw [both] at counted ⊢
  have notFree := counted first List.mem_cons_self
  have notFree' := counted second (List.mem_cons_of_mem _ List.mem_cons_self)
  cases first <;> cases second <;> first | exact absurd rfl notFree | exact absurd rfl notFree' | decide

theorem SameSection.mono {line : Nat} (same : SameSection lines header position) (less : line ≤ position) :
    SameSection lines header line :=
  fun between text after upto found => same between text after (upto.trans less) found

/-- A pass that has all its numbers and reaches to the line `position` is unmixed when no
header interrupts it. -/
theorem Pass.Sound.unmixed (sound : pass.Sound lines (position + 1)) (atNormal : pass.AtNormal lines)
    (same : SameSection lines pass.header position) (all : ∀ count, (pass.reading count).isSome) :
    pass.Unmixed lines where
  atNormal := atNormal
  inSection count := by
    obtain ⟨reading, found⟩ := Option.isSome_iff_exists.mp (all count)
    obtain ⟨after, before, given⟩ := sound.read count reading found
    exact ⟨reading, found, after, same.mono (Nat.le_of_lt_succ before), given⟩

theorem Pass.Unmixed.sameSection {reading : Reading} (unmixed : pass.Unmixed lines) (count : Count)
    (found : pass.reading count = some reading) : SameSection lines pass.header reading.line := by
  obtain ⟨other, same, inSection⟩ := unmixed.inSection count
  rw [found] at same
  cases same
  exact inSection.same

theorem Pass.Unmixed.isSome (unmixed : pass.Unmixed lines) (count : Count) : (pass.reading count).isSome := by
  obtain ⟨reading, found, inSection⟩ := unmixed.inSection count
  rw [found]
  rfl

/-- What is printed behind a header is unmixed when it is a Normal header, the counts are one of each and no other header
stands before the second. -/
theorem Pass.Stands.unmixed_iff {before texts rest : List (List Char)} {printed : Pass}
    (stands : printed.Stands lines before.length zoneid (before ++ text :: texts).length counts) (body : Body counts texts)
    (two : counts.length = 2) (split : lines = before ++ text :: (texts ++ rest)) :
    printed.Unmixed lines ↔ zoneHeader text = some (zoneid, "Normal".toList) ∧
      (counts.map Prod.fst = [.low, .inactive] ∨ counts.map Prod.fst = [.inactive, .low]) ∧
        ∀ other ∈ texts, zoneHeader other = none := by
  have here := getElem?_between split
  have length : (before ++ text :: texts).length = before.length + texts.length + 1 := List.length_append
  rw [length] at stands
  rw [← counts_cases two body.counted, ← sameSection_iff split, ← stands.got .low (by decide), ← stands.got .inactive (by decide)]
  constructor
  · intro unmixed
    obtain ⟨header, found, normal⟩ := unmixed.atNormal
    rw [stands.header_eq, here, Option.some.injEq] at found
    rw [stands.zoneid_eq, ← found] at normal
    obtain ⟨count, last, fresh, at_⟩ := stands.fresh two
    have same := unmixed.sameSection count fresh
    rw [stands.header_eq, Nat.succ.inj at_] at same
    exact ⟨normal, ⟨unmixed.isSome .low, unmixed.isSome .inactive⟩, same⟩
  · intro ⟨normal, ⟨low, inactive⟩, same⟩
    refine stands.sound.unmixed ⟨text, ?_, ?_⟩ ?_ fun count => ?_
    · rw [stands.header_eq, here]
    · rw [stands.zoneid_eq, normal]
    · rwa [stands.header_eq]
    · cases count with
      | free => exact stands.sound.ordered low
      | low => exact low
      | inactive => exact inactive

end

/-! What the machine prints from a line on that the outer loop takes. -/

section
variable {lines before texts rest : List (List Char)} {text : List Char} {zoneid : Int} {counts : List (Count × Int)} {pass : Pass}
  {position header : Nat}

theorem outputs_skip (quiet : passStart text = none) :
    outputs readLine before.length .outer (text :: rest) = outputs readLine (before ++ [text]).length .outer rest := by
  rw [outputs, readLine, quiet, List.length_append]
  rfl

theorem outputs_complete (yields : Yields readLine before.length .outer (text :: texts) pass.settle.2.toList pass.settle.1)
    (done : pass.cntGot = 2) : outputs readLine before.length .outer (text :: (texts ++ rest)) =
      pass :: outputs readLine (before ++ text :: texts).length .outer rest := by
  rw [Pass.settle_last done] at yields
  rw [← List.cons_append, outputs_append, yields.output, yields.last, List.length_append]
  rfl

theorem outputs_unfinished (yields : Yields readLine before.length .outer (text :: texts) pass.settle.2.toList pass.settle.1)
    (more : pass.cntGot < 2) : outputs readLine before.length .outer (text :: (texts ++ rest)) =
      outputs readLine (before ++ text :: texts).length (.zone pass) rest := by
  rw [Pass.settle_next more] at yields
  rw [← List.cons_append, outputs_append, yields.output, yields.last, List.length_append]
  rfl

theorem outputs_wrong {wrong : List Char} (bad : WrongSection wrong) :
    outputs readLine before.length (.zone pass) (wrong :: rest) = outputs readLine (before ++ [wrong]).length .outer rest := by
  rw [outputs, readLine_wrong bad, List.length_append]
  rfl

theorem outputs_cutOff (cut : CutOff rest) : outputs readLine position (.zone pass) rest = [] := by
  cases cut with
  | nil => rfl
  | free text near free few none_ =>
    obtain ⟨here, value, given⟩ := free
    rw [outputs, readLine_free here given]
    exact (yields_near none_ (by omega)).output

/-- From the outer loop on, what is printed is unmixed just when the lines keep their sections apart. -/
theorem KeptApart.unmixed {texts : List (List Char)} (apart : KeptApart texts) {before : List (List Char)}
    (split : lines = before ++ texts) : ∀ pass ∈ outputs readLine before.length .outer texts, pass.Unmixed lines := by
  induction apart generalizing before with
  | nil => nofun
  | skip text quiet _ ih =>
    rw [outputs_skip quiet]
    exact ih (by rw [split, List.append_cons])
  | @complete counts texts rest text zoneid normal body both none_ _ ih =>
    obtain ⟨last, stands, yields⟩ := body.run_header split (passStart_normal normal)
    have two : counts.length = 2 := by
      rcases both with both | both <;> simpa using congrArg List.length both
    rw [outputs_complete yields (stands.cntGot.trans two)]
    rw [List.forall_mem_cons]
    refine ⟨(stands.unmixed_iff body two split).mpr ⟨normal, both, none_⟩, ih ?_⟩
    rw [split, List.append_assoc, List.cons_append]
  | @wrongSection counts texts rest text zoneid wrong start body more bad _ ih =>
    obtain ⟨last, stands, yields⟩ := body.run_header split start
    rw [outputs_unfinished yields (stands.cntGot.trans_lt more), outputs_wrong bad]
    exact ih (by rw [split]; simp)
  | unfinished text zoneid start body more cut =>
    obtain ⟨last, stands, yields⟩ := body.run_header split start
    rw [outputs_unfinished yields (stands.cntGot.trans_lt more), outputs_cutOff cut]
    nofun

theorem keptApart_of_unmixed (texts : List (List Char)) {before : List (List Char)} (split : lines = before ++ texts)
    (unmixed : ∀ pass ∈ outputs readLine before.length .outer texts, pass.Unmixed lines) : KeptApart texts := by
  induction length : texts.length using Nat.strong_induction_on generalizing before texts with
  | _ size ih =>
    cases texts with
    | nil => exact .nil
    | cons text texts =>
      cases start : passStart text with
      | none =>
        rw [outputs_skip start] at unmixed
        exact .skip text start (ih texts.length (by rw [← length]; simp) texts (by rw [split, List.append_cons]) unmixed rfl)
      | some zoneid =>
        obtain ⟨counts, front, rest, same, body, ended⟩ := Body.nil.complete Nat.zero_lt_two texts
        rw [List.nil_append] at same
        subst same
        obtain ⟨last, stands, yields⟩ := body.run_header split start
        rcases ended with two | ⟨more, ⟨wrong, after, rfl, bad⟩ | cut⟩
        · rw [outputs_complete yields (stands.cntGot.trans two), List.forall_mem_cons] at unmixed
          obtain ⟨normal, both, none_⟩ := (stands.unmixed_iff body two split).mp unmixed.1
          exact .complete text zoneid normal body both none_
            (ih rest.length (by rw [← length]; simp only [List.length_cons, List.length_append]; omega) rest (by rw [split]; simp) unmixed.2 rfl)
        · rw [outputs_unfinished yields (stands.cntGot.trans_lt more), outputs_wrong bad] at unmixed
          exact .wrongSection text zoneid wrong start body more bad
            (ih after.length (by rw [← length]; simp only [List.length_cons, List.length_append]; omega) after (by rw [split]; simp) unmixed rfl)
        · exact .unfinished text zoneid start body more cut

end

/-- Every printed line is from one Normal section just when the lines of the file keep their sections apart. -/
theorem coreProcess_unmixed_iff {file : List Char} (short : ∀ text ∈ fileLines file, text.length < 256) :
    coreProcess file = (prints file).map Pass.report ∧
      ((∀ pass ∈ prints file, pass.Unmixed (linebufs file)) ↔ KeptApart (linebufs file)) := by
  have split : linebufs file = [] ++ linebufs file := rfl
  exact ⟨coreProcess_prints short, keptApart_of_unmixed (linebufs file) split, fun apart => apart.unmixed split⟩

def wholeFile : List Char :=
  ["Node 0, zone   Normal\n", "  pages free     10\n", "        min      1\n", "        low      2\n",
    "      nr_zone_inactive_file 500\n", "Node 1, zone      DMA\n"].flatMap String.toList

theorem coreProcess_unmixed_iff_wholeFile :
    coreProcess wholeFile = (prints wholeFile).map Pass.report ∧
      ((∀ pass ∈ prints wholeFile, pass.Unmixed (linebufs wholeFile)) ↔ KeptApart (linebufs wholeFile)) :=
  coreProcess_unmixed_iff (by decide +kernel)

def incompleteFile : List Char :=
  ["Node 0, zone   Normal\n", "  pages free     10\n", "        min      1\n", "        low      2\n",
    "Node 1, zone      DMA\n", "      nr_inactive_file 500\n"].flatMap String.toList

theorem coreProcess_mixes :
    (∀ text ∈ fileLines incompleteFile, text.length < 255) ∧
      coreProcess incompleteFile = [{ zoneid := 0, free := 10, low := 2, inact := 500, avlb := 508 }] ∧
      ∃ pass ∈ prints incompleteFile, ¬pass.Unmixed (linebufs incompleteFile) := by
  have short : ∀ text ∈ fileLines incompleteFile, text.length < 255 := by decide +kernel
  have printed : prints incompleteFile =
      [{ header := 0, zoneid := 0, free := some { value := 10, line := 1 }, low := some { value := 2, line := 3 },
         inactive := some { value := 500, line := 5 }, cntGot := 2 }] := by decide +kernel
  apply And.intro short
  rw [coreProcess_prints fun text member => (short text member).trans (by decide), printed]
  apply And.intro (by decide)
  refine ⟨_, List.mem_singleton_self _, fun unmixed => ?_⟩
  have header := unmixed.sameSection .inactive rfl 4 "Node 1, zone      DMA\n".toList
    (by decide) (by decide) (by decide +kernel)
  exact absurd header (by decide +kernel)

end Mbench.Zoneinfo
