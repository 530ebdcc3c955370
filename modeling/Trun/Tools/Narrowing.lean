import Mathlib.Data.List.Dedup
import Mathlib.Data.List.Forall2
import Mathlib.Data.List.Pairwise
import Trun.Tools.Globs

/-!
# What narrowed globs cover

A round of `_constrain_glob` puts the digits of the paths in the place of the
leftmost wildcard.  All globs have that wildcard at the same position, since
what stands before it are single characters, in the globs as in the paths.
-/

namespace Trun.Tools

open Dict

/-! ## Globs -/

/-- What the characters between two brackets accept. -/
def classAccepts : List Char → Char → Bool
  | low :: dash :: high :: rest, c =>
    if dash = '-' then (decide (low ≤ c) && decide (c ≤ high)) || classAccepts rest c
    else c == low || classAccepts (dash :: high :: rest) c
  | first :: rest, c => c == first || classAccepts rest c
  | [], _ => false

/-- What the positions of a glob accept; `*`, `?` and negated classes do not occur.  The first
argument holds the characters since an opening bracket, last one first. -/
def acceptedFrom : Option (List Char) → Text → List (Char → Bool)
  | none, [] => []
  | none, c :: rest =>
    if c = '[' then acceptedFrom (some []) rest else (· == c) :: acceptedFrom none rest
  | some chars, [] => ('[' :: chars.reverse).map fun c => (· == c)
  | some chars, c :: rest =>
    if c = ']' then classAccepts chars.reverse :: acceptedFrom none rest
    else acceptedFrom (some (c :: chars)) rest

def Matches (glob text : Text) : Prop :=
  List.Forall₂ (fun accepts c => accepts c = true) (acceptedFrom none glob) text

def StartsWithMatch (glob path : Text) : Prop := ∃ front, front <+: path ∧ Matches glob front

/-- A character that stands for itself in a glob. -/
abbrev Literal := {c : Char // c ≠ '[' ∧ c ≠ '*' ∧ c ≠ '?'}

/-- A glob of literal characters and wildcards, which are `none`. -/
abbrev Pattern := List (Option Literal)

def render (pattern : Pattern) : Text :=
  pattern.flatMap fun
    | none => wildcard
    | some literal => [literal.1]

/-- A character in the place of a literal or of a wildcard. -/
def Fits : Option Literal → Char → Prop
  | none, c => c.isDigit = true
  | some literal, c => c = literal.1

abbrev Fills (pattern : Pattern) (word : Text) : Prop := List.Forall₂ Fits pattern word

/-- The path starts with a text that fills the pattern. -/
def Begins (pattern : Pattern) (path : Text) : Prop := ∃ word, word <+: path ∧ Fills pattern word

section Reading

variable {rest : Text}

@[simp] theorem render_nil : render [] = [] := rfl

@[simp] theorem render_none (pattern : Pattern) :
    render (none :: pattern) = wildcard ++ render pattern := rfl

@[simp] theorem render_some (literal : Literal) (pattern : Pattern) :
    render (some literal :: pattern) = literal.1 :: render pattern := rfl

theorem render_append (pattern other : Pattern) :
    render (pattern ++ other) = render pattern ++ render other :=
  List.flatMap_append

theorem render_literals (literals : List Literal) :
    render (literals.map some) = literals.map (·.1) := by
  induction literals with
  | nil => rfl
  | cons literal literals ih => rw [List.map_cons, render_some, ih, List.map_cons]

theorem accepted_char {c : Char} (hc : c ≠ '[') :
    acceptedFrom none (c :: rest) = (· == c) :: acceptedFrom none rest := by
  rw [acceptedFrom, if_neg hc]

theorem accepted_open (front chars : List Char) (hchars : ']' ∉ chars) :
    acceptedFrom (some front) (chars ++ ']' :: rest) =
      classAccepts (front.reverse ++ chars) :: acceptedFrom none rest := by
  induction chars generalizing front with
  | nil => rw [List.nil_append, acceptedFrom, if_pos rfl, List.append_nil]
  | cons c chars ih =>
      have hc := List.ne_of_not_mem_cons hchars
      have hrest := List.not_mem_of_not_mem_cons hchars
      rw [List.cons_append, acceptedFrom, if_neg (Ne.symm hc), ih (c :: front) hrest,
        List.reverse_cons, List.append_assoc, List.singleton_append]

theorem accepted_class {chars : List Char} (hchars : ']' ∉ chars) :
    acceptedFrom none ('[' :: chars ++ ']' :: rest) =
      classAccepts chars :: acceptedFrom none rest := by
  rw [List.cons_append, acceptedFrom, if_pos rfl, accepted_open [] chars hchars]
  rfl

theorem classAccepts_range (low high c : Char) :
    classAccepts [low, '-', high] c = true ↔ low ≤ c ∧ c ≤ high := by
  simp [classAccepts]

/-- Without dashes a class accepts its own characters. -/
theorem classAccepts_chars {chars : List Char} (hchars : '-' ∉ chars) (c : Char) :
    classAccepts chars c = true ↔ c ∈ chars := by
  induction chars with
  | nil => simp [classAccepts]
  | cons first rest ih =>
      have hrest := List.not_mem_of_not_mem_cons hchars
      have hstep : classAccepts (first :: rest) c = (c == first || classAccepts rest c) := by
        match rest, hrest with
        | [], _ => rfl
        | [_], _ => rfl
        | _ :: _ :: _, hrest =>
            rw [classAccepts, if_neg (Ne.symm (List.ne_of_not_mem_cons hrest))]
      rw [hstep, Bool.or_eq_true, beq_iff_eq, ih hrest, List.mem_cons]

theorem accepted_wildcard :
    acceptedFrom none (wildcard ++ rest) = classAccepts ['0', '-', '9'] :: acceptedFrom none rest :=
  @accepted_class rest ['0', '-', '9'] (by decide)

theorem isDigit_iff (c : Char) : c.isDigit = true ↔ '0' ≤ c ∧ c ≤ '9' := by
  simp [Char.isDigit, Char.le_def]

/-- A glob matches what fills its pattern. -/
theorem matches_render {pattern : Pattern} {text : Text} :
    Matches (render pattern) text ↔ Fills pattern text := by
  induction pattern generalizing text with
  | nil =>
      rw [render_nil, Matches, acceptedFrom, List.forall₂_nil_left_iff]
      exact List.forall₂_nil_left_iff.symm
  | cons token pattern ih =>
      have hhead : ∃ accepts, acceptedFrom none (render (token :: pattern)) =
          accepts :: acceptedFrom none (render pattern) ∧
          ∀ c, accepts c = true ↔ Fits token c := by
        cases token with
        | none =>
            refine ⟨_, accepted_wildcard, fun c => ?_⟩
            rw [classAccepts_range, Fits, isDigit_iff]
        | some literal =>
            refine ⟨_, accepted_char literal.2.1, fun c => ?_⟩
            rw [beq_iff_eq, Fits]
      obtain ⟨accepts, haccepted, hfits⟩ := hhead
      rw [Matches, haccepted]
      cases text with
      | nil => simp
      | cons c text =>
          rw [List.forall₂_cons]
          exact (and_congr (hfits c) ih).trans List.forall₂_cons.symm

/-- A path starts with a match where it begins with a filled pattern. -/
theorem startsWithMatch_render {pattern : Pattern} {path : Text} :
    StartsWithMatch (render pattern) path ↔ Begins pattern path := by
  simp only [StartsWithMatch, Begins, matches_render]

end Reading

/-! ## Texts -/

section Texts

variable {word rest : Text}

theorem not_isPrefixOf_wildcard {c : Char} (hc : c ≠ '[') :
    wildcard.isPrefixOf (c :: rest) = false := by
  simp [wildcard, List.isPrefixOf, Ne.symm hc]

theorem isPrefixOf_wildcard : wildcard.isPrefixOf (wildcard ++ rest) = true := by
  rw [List.isPrefixOf_iff_prefix]
  exact List.prefix_append ..

theorem find_wildcard (hword : ∀ c ∈ word, c ≠ '[') :
    find wildcard (word ++ wildcard ++ rest) = some word.length := by
  induction word with
  | nil =>
      change (if wildcard.isPrefixOf (wildcard ++ rest) then some 0 else _) = _
      rw [isPrefixOf_wildcard]
      rfl
  | cons c word ih =>
      obtain ⟨hc, hword⟩ := List.forall_mem_cons.mp hword
      rw [List.cons_append, List.cons_append, find, not_isPrefixOf_wildcard hc, ih hword]
      rfl

theorem find_eq_none (hword : ∀ c ∈ word, c ≠ '[') : find wildcard word = none := by
  induction word with
  | nil => rfl
  | cons c word ih =>
      obtain ⟨hc, hword⟩ := List.forall_mem_cons.mp hword
      rw [find, not_isPrefixOf_wildcard hc, ih hword]
      rfl

theorem replaceFirst_wildcard (replacement : Text) (hword : ∀ c ∈ word, c ≠ '[') :
    replaceFirst wildcard replacement (word ++ wildcard ++ rest) = word ++ replacement ++ rest := by
  induction word with
  | nil =>
      change (if wildcard.isPrefixOf (wildcard ++ rest) then _ else _) = _
      rw [isPrefixOf_wildcard, if_pos rfl]
      rfl
  | cons c word ih =>
      obtain ⟨hc, hword⟩ := List.forall_mem_cons.mp hword
      rw [List.cons_append, List.cons_append, replaceFirst, not_isPrefixOf_wildcard hc, ih hword]
      rfl

end Texts

theorem mem_sortedSet {chars : List Char} {c : Char} : c ∈ sortedSet chars ↔ c ∈ chars := by
  rw [sortedSet, List.mem_insertionSort, List.mem_dedup]

theorem nodup_sortedSet (chars : List Char) : (sortedSet chars).Nodup :=
  (List.perm_insertionSort ..).nodup_iff.mpr chars.nodup_dedup

theorem pairwise_sortedSet (chars : List Char) : (sortedSet chars).Pairwise (· ≤ ·) :=
  List.pairwise_insertionSort ..

/-- The class of a set of digits accepts them, and digits only. -/
theorem accepted_digitSetWildcard {digits : List Char} (hne : digits ≠ [])
    (hdigits : ∀ c ∈ digits, c.isDigit = true) (hsorted : digits.Pairwise (· ≤ ·)) (rest : Text) :
    ∃ accepts, acceptedFrom none (digitSetWildcard digits ++ rest) =
        accepts :: acceptedFrom none rest ∧
      (∀ c ∈ digits, accepts c = true) ∧ ∀ c, accepts c = true → c.isDigit = true := by
  have hbracket : ∀ c ∈ digits, c ≠ ']' := fun c hc h => by
    have := hdigits c hc
    rw [h] at this
    cases this
  have hdash : ∀ c ∈ digits, c ≠ '-' := fun c hc h => by
    have := hdigits c hc
    rw [h] at this
    cases this
  have hmemFirst := List.head_mem hne
  have hmemLast := List.getLast_mem hne
  have hle : ∀ c ∈ digits, digits.head hne ≤ c ∧ c ≤ digits.getLast hne := fun c hc =>
    ⟨hsorted.rel_head hc, hsorted.rel_getLast hc⟩
  rw [digitSetWildcard, hsorted.insertionSort_eq, List.head?_eq_some_head hne,
    List.getLast?_eq_some_getLast hne]
  generalize digits.head hne = first at hle hmemFirst ⊢
  generalize digits.getLast hne = last at hle hmemLast ⊢
  dsimp only
  split
  · refine ⟨_, @accepted_class rest [first, '-', last] ?_, fun c hc => ?_, fun c hc => ?_⟩
    · simp [Ne.symm (hbracket first hmemFirst), Ne.symm (hbracket last hmemLast)]
    · exact (classAccepts_range ..).mpr (hle c hc)
    · obtain ⟨hlow, hhigh⟩ := (classAccepts_range ..).mp hc
      rw [isDigit_iff]
      have hzero := ((isDigit_iff first).mp (hdigits first hmemFirst)).1
      have hnine := ((isDigit_iff last).mp (hdigits last hmemLast)).2
      exact ⟨Char.le_trans hzero hlow, Char.le_trans hhigh hnine⟩
  · have hclass : ∀ c, classAccepts digits c = true ↔ c ∈ digits :=
      classAccepts_chars fun hmem => hdash '-' hmem rfl
    refine ⟨classAccepts digits, ?_, fun c hc => (hclass c).mpr hc,
      fun c hc => hdigits c ((hclass c).mp hc)⟩
    rw [List.append_assoc]
    exact accepted_class fun hmem => hbracket ']' hmem rfl

/-! ## Paths -/

theorem forall₂_append_iff {α β : Type} {rel : α → β → Prop} {front rest : List α}
    {word : List β} : List.Forall₂ rel (front ++ rest) word ↔
      ∃ left right, word = left ++ right ∧ List.Forall₂ rel front left ∧
        List.Forall₂ rel rest right := by
  induction front generalizing word with
  | nil =>
      constructor
      · intro hall
        exact ⟨[], word, rfl, .nil, hall⟩
      · rintro ⟨left, right, rfl, hleft, hright⟩
        cases hleft
        exact hright
  | cons item front ih =>
      constructor
      · intro hall
        cases hall with
        | cons hitem hrest =>
            obtain ⟨left, right, rfl, hleft, hright⟩ := ih.mp hrest
            exact ⟨_ :: left, right, rfl, .cons hitem hleft, hright⟩
      · rintro ⟨left, right, rfl, hleft, hright⟩
        cases hleft with
        | cons hitem hrest => exact .cons hitem (ih.mpr ⟨_, _, rfl, hrest, hright⟩)

theorem fills_literals {literals : List Literal} {word : Text} :
    Fills (literals.map some) word ↔ word = literals.map (·.1) := by
  induction literals generalizing word with
  | nil => exact List.forall₂_nil_left_iff
  | cons literal literals ih =>
      constructor
      · intro hfills
        cases hfills with
        | cons hfits hrest => rw [hfits, ih.mp hrest, List.map_cons]
      · rintro rfl
        exact .cons rfl (ih.mpr rfl)

/-- No bracket fills a pattern. -/
theorem Fills.no_bracket {pattern : Pattern} {word : Text} (hfills : Fills pattern word) :
    ∀ c ∈ word, c ≠ '[' := by
  induction hfills with
  | nil => exact fun _ hc => by cases hc
  | @cons token c _ _ hfits _ ih =>
      apply List.forall_mem_cons.mpr ⟨_, ih⟩
      cases token with
      | none =>
          rintro rfl
          cases hfits
      | some literal =>
          rw [show c = literal.1 from hfits]
          exact literal.2.1

/-- What follows the part of a path that is known. -/
theorem Begins.rest {front back : Pattern} {word path : Text}
    (hbegins : Begins (front ++ back) path) (hword : Fills front word) (hstarts : word <+: path) :
    ∃ right tail, path = word ++ right ++ tail ∧ Fills back right := by
  obtain ⟨filled, ⟨tail, rfl⟩, hfills⟩ := hbegins
  obtain ⟨left, right, rfl, hleft, hright⟩ := forall₂_append_iff.mp hfills
  have hlength : word.length = left.length :=
    (List.Forall₂.length_eq hword).symm.trans (List.Forall₂.length_eq hleft)
  obtain ⟨back, hback⟩ := hstarts
  rw [List.append_assoc] at hback
  obtain ⟨rfl, -⟩ := List.append_inj hback hlength
  exact ⟨right, tail, rfl, hright⟩

/-- A path that begins with the pattern goes on with the literals and a digit. -/
theorem Begins.digit {front rest : Pattern} {literals : List Literal} {word path : Text}
    (hbegins : Begins (front ++ (literals.map some ++ none :: rest)) path)
    (hword : Fills front word) (hstarts : word <+: path) :
    ∃ digit last tail, digit.isDigit = true ∧ Fills rest last ∧
      path = word ++ literals.map (·.1) ++ digit :: (last ++ tail) := by
  obtain ⟨right, tail, rfl, hright⟩ := hbegins.rest hword hstarts
  obtain ⟨middle, last, rfl, hmiddle, hlast⟩ := forall₂_append_iff.mp hright
  obtain rfl := fills_literals.mp hmiddle
  cases hlast with
  | @cons _ digit _ last hdigit hlast => exact ⟨digit, last, tail, hdigit, hlast, by simp⟩

/-! ## Rounds -/

def digitsAt (pos : ℕ) (paths : List Text) : List Char :=
  sortedSet (paths.filterMap fun path => path[pos]?)

theorem mem_digitsAt {pos : ℕ} {paths : List Text} {c : Char} :
    c ∈ digitsAt pos paths ↔ ∃ path ∈ paths, path[pos]? = some c := by
  rw [digitsAt, mem_sortedSet, List.mem_filterMap]

theorem charsAt_eq {pos : ℕ} {paths : List Text}
    (hpaths : ∀ path ∈ paths, ∃ c, path[pos]? = some c) :
    charsAt pos paths = .ok (paths.filterMap fun path => path[pos]?) := by
  induction paths with
  | nil => rfl
  | cons path paths ih =>
      obtain ⟨⟨c, hc⟩, hpaths⟩ := List.forall_mem_cons.mp hpaths
      rw [charsAt, hc, ih hpaths, List.filterMap_cons, hc]
      rfl

theorem charSets_eq {pos : ℕ} {entries : List (Text × List Text)}
    (hentries : ∀ entry ∈ entries, ∀ path ∈ entry.2, ∃ c, path[pos]? = some c) :
    charSets pos entries = .ok (entries.map fun entry => (entry.1, digitsAt pos entry.2)) := by
  induction entries with
  | nil => rfl
  | cons entry entries ih =>
      obtain ⟨hentry, hentries⟩ := List.forall_mem_cons.mp hentries
      rw [charSets, charsAt_eq hentry, ih hentries]
      rfl

/-- What a glob of the round is replaced by. -/
def successors (pos : ℕ) (entry : Text × List Text) : List (Text × List Text) :=
  (digitsAt pos entry.2).map fun c =>
    (replaceFirst wildcard [c] entry.1, entry.2.filter fun path => path[pos]? = some c)

/-- The inner loop adds a new glob for every digit. -/
theorem entries_addDigits {pos : ℕ} {glob : Text} {group : List Text} {chars : List Char}
    {current : Dict Text (List Text)} (hgroup : current.getD glob [] = group)
    (hnew : ∀ c ∈ chars, current.get? (replaceFirst wildcard [c] glob) = none)
    (hself : ∀ c ∈ chars, replaceFirst wildcard [c] glob ≠ glob)
    (hnodup : (chars.map fun c => replaceFirst wildcard [c] glob).Nodup) :
    (chars.foldl (fun now c => now.set (replaceFirst wildcard [c] glob)
        ((now.getD glob []).filter fun path => path[pos]? = some c)) current).entries =
      current.entries ++ chars.map fun c =>
        (replaceFirst wildcard [c] glob, group.filter fun path => path[pos]? = some c) := by
  induction chars generalizing current with
  | nil => exact (List.append_nil _).symm
  | cons c chars ih =>
      obtain ⟨hnewHead, hnew⟩ := List.forall_mem_cons.mp hnew
      obtain ⟨hselfHead, hself⟩ := List.forall_mem_cons.mp hself
      rw [List.map_cons, List.nodup_cons] at hnodup
      rw [List.foldl_cons, ih _ _ hself hnodup.2, entries_set_new _ hnewHead, hgroup,
        List.append_assoc]
      · rfl
      · rw [getD_set, if_neg (Ne.symm hselfHead), hgroup]
      · intro other hother
        have hne : replaceFirst wildcard [other] glob ≠ replaceFirst wildcard [c] glob :=
          fun h => hnodup.1 (h ▸ List.mem_map_of_mem hother)
        rw [get?_set, if_neg hne]
        exact hnew other hother

/-- A round replaces every glob by its successors. -/
theorem entries_foldl_specialise {pos : ℕ} {todo finished : List (Text × List Text)}
    {current : Dict Text (List Text)} (hentries : current.entries = todo ++ finished)
    (hnodup : (todo.map Prod.fst ++ finished.map Prod.fst ++
      (todo.flatMap (successors pos)).map Prod.fst).Nodup) :
    ((todo.map fun entry => (entry.1, digitsAt pos entry.2)).foldl (specialise pos)
      current).entries = finished ++ todo.flatMap (successors pos) := by
  induction todo generalizing finished current with
  | nil => rw [List.map_nil, List.foldl_nil, hentries, List.flatMap_nil, List.append_nil,
      List.nil_append]
  | cons entry todo ih =>
      simp only [List.map_cons, List.flatMap_cons, List.map_append, List.cons_append,
        List.append_assoc, List.nodup_cons] at hnodup
      obtain ⟨hentry, hnodup⟩ := hnodup
      have hrest : (todo.map Prod.fst ++ (finished ++ successors pos entry).map Prod.fst ++
          (todo.flatMap (successors pos)).map Prod.fst).Nodup := by
        simp only [List.map_append, List.append_assoc]
        exact hnodup
      have hkeys : current.keys = entry.1 :: (todo ++ finished).map Prod.fst := by
        rw [Dict.keys, hentries]
        rfl
      have hsuccessors : (successors pos entry).map Prod.fst =
          (digitsAt pos entry.2).map fun c => replaceFirst wildcard [c] entry.1 := by
        rw [successors, List.map_map]
        rfl
      have hafter : (specialise pos current (entry.1, digitsAt pos entry.2)).entries =
          todo ++ (finished ++ successors pos entry) := by
        have hgroup : current.getD entry.1 [] = entry.2 := by
          have hget := (mem_entries_iff current entry.1 entry.2).mp
            (hentries ▸ List.mem_cons_self ..)
          rw [Dict.getD, hget]
          rfl
        have hfresh : ∀ c ∈ digitsAt pos entry.2, replaceFirst wildcard [c] entry.1 ∉
            current.keys := by
          intro c hc hmem
          have hsuccessor : replaceFirst wildcard [c] entry.1 ∈
              (successors pos entry).map Prod.fst := hsuccessors ▸ List.mem_map_of_mem hc
          rw [hkeys, List.map_append] at hmem
          rcases List.mem_cons.mp hmem with hself | hold
          · exact hentry (List.mem_append_right _ (List.mem_append_right _
              (List.mem_append_left _ (hself ▸ hsuccessor))))
          · rw [← List.append_assoc] at hnodup
            exact List.disjoint_of_nodup_append hnodup hold (List.mem_append_left _ hsuccessor)
        have hnew : ∀ c ∈ digitsAt pos entry.2,
            current.get? (replaceFirst wildcard [c] entry.1) = none := by
          intro c hc
          by_contra hsome
          obtain ⟨value, hvalue⟩ := Option.ne_none_iff_exists'.mp hsome
          exact hfresh c hc ((mem_keys_iff ..).mpr ⟨value, hvalue⟩)
        have hself : ∀ c ∈ digitsAt pos entry.2, replaceFirst wildcard [c] entry.1 ≠ entry.1 := by
          intro c hc heq
          exact hfresh c hc (by rw [heq, hkeys]; exact List.mem_cons_self ..)
        have hdistinct : ((digitsAt pos entry.2).map fun c =>
            replaceFirst wildcard [c] entry.1).Nodup := by
          rw [← hsuccessors]
          exact (List.nodup_append.mp (List.nodup_append.mp
            (List.nodup_append.mp hnodup).2.1).2.1).1
        change List.filter _ (Dict.entries _) = _
        rw [entries_addDigits hgroup hnew hself hdistinct, hentries, List.cons_append,
          List.cons_append, List.filter_cons_of_neg (by simp), List.append_assoc]
        refine List.filter_eq_self.mpr fun other hother => decide_eq_true fun heq => hentry ?_
        have hmem : entry.1 ∈ (todo ++ (finished ++ successors pos entry)).map Prod.fst :=
          List.mem_map.mpr ⟨other, hother, heq⟩
        rw [List.map_append, List.map_append, ← List.append_assoc] at hmem
        rw [← List.append_assoc, ← List.append_assoc]
        exact List.mem_append_left _ hmem
      rw [List.map_cons, List.foldl_cons, ih hafter hrest, List.flatMap_cons, List.append_assoc]

/-! ## The invariant -/

/-- A glob whose first part is filled in, with its paths. -/
structure Group (front rest : Pattern) (paths : List Text) (word : Text)
    (entry : Text × List Text) : Prop where
  glob : entry.1 = word ++ render rest
  fills : Fills front word
  nonempty : entry.2 ≠ []
  begins : ∀ path ∈ entry.2, path ∈ paths ∧ word <+: path

/-- The globs, filled in as far as `front`, cover the paths. -/
structure Covered (limit : ℕ) (front rest : Pattern) (paths : List Text)
    (current : Dict Text (List Text)) : Prop where
  groups : ∀ entry ∈ current.entries, ∃ word, Group front rest paths word entry
  covers : ∀ path ∈ paths, ∃ entry ∈ current.entries, path ∈ entry.2
  few : current.entries.length ≤ limit

section Round

variable {front rest : Pattern} {literals : List Literal} {paths : List Text} {word : Text}
  {entry : Text × List Text}

/-- The literals up to the next wildcard. -/
def opened (word : Text) (literals : List Literal) : Text := word ++ literals.map (·.1)

theorem Group.fills_opened
    (hgroup : Group front (literals.map some ++ none :: rest) paths word entry) :
    Fills (front ++ literals.map some) (opened word literals) :=
  forall₂_append_iff.mpr ⟨word, _, rfl, hgroup.fills, fills_literals.mpr rfl⟩

theorem Group.length_opened
    (hgroup : Group front (literals.map some ++ none :: rest) paths word entry) :
    (opened word literals).length = front.length + literals.length := by
  rw [opened, List.length_append, List.length_map, ← List.Forall₂.length_eq hgroup.fills]

theorem Group.glob_opened
    (hgroup : Group front (literals.map some ++ none :: rest) paths word entry) :
    entry.1 = opened word literals ++ wildcard ++ render rest := by
  rw [hgroup.glob, render_append, render_literals, render_none, opened]
  simp only [List.append_assoc]

theorem Group.replace (hgroup : Group front (literals.map some ++ none :: rest) paths word entry)
    (replacement : Text) : replaceFirst wildcard replacement entry.1 =
      opened word literals ++ replacement ++ render rest := by
  rw [hgroup.glob_opened, replaceFirst_wildcard _ hgroup.fills_opened.no_bracket]

/-- The paths of a group go on with a digit. -/
theorem Group.digit (hgroup : Group front (literals.map some ++ none :: rest) paths word entry)
    (hbegins : ∀ path ∈ paths, Begins (front ++ (literals.map some ++ none :: rest)) path)
    {path : Text} (hpath : path ∈ entry.2) :
    ∃ digit last tail, digit.isDigit = true ∧ Fills rest last ∧
      path = opened word literals ++ digit :: (last ++ tail) ∧
      path[front.length + literals.length]? = some digit := by
  obtain ⟨hmem, hstarts⟩ := hgroup.begins path hpath
  obtain ⟨digit, last, tail, hdigit, hlast, heq⟩ := (hbegins path hmem).digit hgroup.fills hstarts
  refine ⟨digit, last, tail, hdigit, hlast, heq, ?_⟩
  rw [heq, ← opened, ← hgroup.length_opened]
  simp

/-- A glob with a digit in the place of the wildcard, and the paths with that digit. -/
theorem Group.successor
    (hgroup : Group front (literals.map some ++ none :: rest) paths word entry)
    (hbegins : ∀ path ∈ paths, Begins (front ++ (literals.map some ++ none :: rest)) path)
    {successor : Text × List Text}
    (hsuccessor : successor ∈ successors (front.length + literals.length) entry) :
    ∃ digit, Group (front ++ (literals.map some ++ [none])) rest paths
      (opened word literals ++ [digit]) successor := by
  obtain ⟨digit, hdigit, rfl⟩ := List.mem_map.mp hsuccessor
  obtain ⟨path, hpath, hread⟩ := mem_digitsAt.mp hdigit
  have hsame : ∀ other ∈ entry.2, other[front.length + literals.length]? = some digit →
      digit.isDigit = true ∧ opened word literals ++ [digit] <+: other := by
    intro other hother hread
    obtain ⟨found, last, tail, hfound, -, heq, hat⟩ := hgroup.digit hbegins hother
    obtain rfl := Option.some.inj (hread.symm.trans hat)
    exact ⟨hfound, last ++ tail, by rw [heq]; simp⟩
  refine ⟨digit, ?_, ?_, ?_, ?_⟩
  · rw [hgroup.replace]
  · rw [← List.append_assoc]
    exact forall₂_append_iff.mpr ⟨_, _, rfl, hgroup.fills_opened,
      .cons (hsame path hpath hread).1 .nil⟩
  · exact List.ne_nil_of_mem (List.mem_filter.mpr ⟨hpath, decide_eq_true hread⟩)
  · intro other hother
    obtain ⟨hmem, hread⟩ := List.mem_filter.mp hother
    exact ⟨(hgroup.begins other hmem).1, (hsame other hmem (of_decide_eq_true hread)).2⟩

section Step

variable {limit : ℕ} {current : Dict Text (List Text)}

/-- The keys of a round: the old globs and the new ones. -/
theorem Covered.nodup
    (hcovered : Covered limit front (literals.map some ++ none :: rest) paths current) :
    (current.entries.map Prod.fst ++ ([] : List (Text × List Text)).map Prod.fst ++
      (current.entries.flatMap (successors (front.length + literals.length))).map
        Prod.fst).Nodup := by
  -- a new glob is as long as all others of its kind, and shorter than the old ones
  have hword : ∀ entry ∈ current.entries, ∃ opened : Text,
      opened.length = front.length + literals.length ∧
        ∀ replacement, entry.1 = opened ++ wildcard ++ render rest ∧
          replaceFirst wildcard replacement entry.1 = opened ++ replacement ++ render rest := by
    intro entry hentry
    obtain ⟨word, hgroup⟩ := hcovered.groups entry hentry
    exact ⟨opened word literals, hgroup.length_opened, fun replacement =>
      ⟨hgroup.glob_opened, hgroup.replace replacement⟩⟩
  rw [List.map_nil, List.append_nil, List.map_flatMap, List.nodup_append]
  refine ⟨current.nodup_keys, List.nodup_flatMap.mpr ⟨fun entry hentry => ?_, ?_⟩, ?_⟩
  · obtain ⟨opened, -, hopened⟩ := hword entry hentry
    rw [successors, List.map_map]
    apply (nodup_sortedSet _).map
    intro c d heq
    have hreplaced : replaceFirst wildcard [c] entry.1 = replaceFirst wildcard [d] entry.1 := heq
    rw [(hopened [c]).2, (hopened [d]).2] at hreplaced
    simpa using hreplaced
  · have hdistinct : current.entries.Pairwise fun entry other => entry.1 ≠ other.1 :=
      List.pairwise_map.mp current.nodup_keys
    refine hdistinct.imp_of_mem fun {entry other} hentry hother hne key hkey hkey' => hne ?_
    obtain ⟨opened, hlength, hopened⟩ := hword entry hentry
    obtain ⟨opened', hlength', hopened'⟩ := hword other hother
    obtain ⟨successor, hsuccessor, rfl⟩ := List.mem_map.mp hkey
    obtain ⟨c, -, rfl⟩ := List.mem_map.mp hsuccessor
    obtain ⟨successor', hsuccessor', heq⟩ := List.mem_map.mp hkey'
    obtain ⟨d, -, rfl⟩ := List.mem_map.mp hsuccessor'
    dsimp only at heq
    rw [(hopened [c]).2, (hopened' [d]).2, List.append_assoc, List.append_assoc] at heq
    obtain ⟨rfl, -⟩ := List.append_inj heq (hlength'.trans hlength.symm)
    rw [(hopened []).1, (hopened' []).1]
  · intro old hold new hnew heq
    obtain ⟨entry, hentry, rfl⟩ := List.mem_map.mp hold
    obtain ⟨other, hother, hnew⟩ := List.mem_flatMap.mp hnew
    obtain ⟨successor, hsuccessor, rfl⟩ := List.mem_map.mp hnew
    obtain ⟨c, -, rfl⟩ := List.mem_map.mp hsuccessor
    obtain ⟨opened, hlength, hopened⟩ := hword entry hentry
    obtain ⟨opened', hlength', hopened'⟩ := hword other hother
    have hlengths := congrArg List.length heq
    dsimp only at hlengths
    rw [(hopened []).1, (hopened' [c]).2] at hlengths
    simp only [List.length_append, hlength, hlength'] at hlengths
    have hwildcard : wildcard.length = 5 := rfl
    rw [hwildcard, List.length_singleton] at hlengths
    omega

theorem Covered.charSets_eq
    (hcovered : Covered limit front (literals.map some ++ none :: rest) paths current)
    (hbegins : ∀ path ∈ paths, Begins (front ++ (literals.map some ++ none :: rest)) path) :
    charSets (front.length + literals.length) current.entries =
      .ok (current.entries.map fun entry =>
        (entry.1, digitsAt (front.length + literals.length) entry.2)) := by
  apply Tools.charSets_eq
  intro entry hentry path hpath
  obtain ⟨word, hgroup⟩ := hcovered.groups entry hentry
  obtain ⟨digit, last, tail, -, -, -, hread⟩ := hgroup.digit hbegins hpath
  exact ⟨digit, hread⟩

/-- A round that does not reach the limit. -/
theorem Covered.round
    (hcovered : Covered limit front (literals.map some ++ none :: rest) paths current)
    (hbegins : ∀ path ∈ paths, Begins (front ++ (literals.map some ++ none :: rest)) path)
    (hfew : ((current.entries.map fun entry => (entry.1,
      digitsAt (front.length + literals.length) entry.2)).map fun entry => entry.2.length).sum ≤
        limit) :
    Covered limit (front ++ (literals.map some ++ [none])) rest paths
      ((current.entries.map fun entry =>
        (entry.1, digitsAt (front.length + literals.length) entry.2)).foldl
          (specialise (front.length + literals.length)) current) := by
  have hentries := entries_foldl_specialise (List.append_nil current.entries).symm hcovered.nodup
  constructor
  · intro successor hsuccessor
    rw [hentries] at hsuccessor
    obtain ⟨entry, hentry, hsuccessor⟩ := List.mem_flatMap.mp hsuccessor
    obtain ⟨word, hgroup⟩ := hcovered.groups entry hentry
    obtain ⟨digit, hnext⟩ := hgroup.successor hbegins hsuccessor
    exact ⟨_, hnext⟩
  · intro path hpath
    obtain ⟨entry, hentry, hmem⟩ := hcovered.covers path hpath
    obtain ⟨word, hgroup⟩ := hcovered.groups entry hentry
    obtain ⟨digit, last, tail, -, -, -, hread⟩ := hgroup.digit hbegins hmem
    rw [hentries]
    refine ⟨_, List.mem_flatMap.mpr ⟨entry, hentry, List.mem_map.mpr
      ⟨digit, mem_digitsAt.mpr ⟨path, hmem, hread⟩, rfl⟩⟩, ?_⟩
    exact List.mem_filter.mpr ⟨hmem, decide_eq_true hread⟩
  · rw [hentries, List.nil_append, List.length_flatMap]
    apply le_trans (le_of_eq _) hfew
    rw [List.map_map]
    congr 1
    apply List.map_congr_left
    intro entry _
    exact List.length_map _

end Step

end Round

/-! ## The result -/

/-- What stands in a narrowed glob for a literal or a wildcard. -/
inductive Slot where
  | char (c : Char)
  | wildcard
  | narrowed (digits : List Char)

def Slot.text : Slot → Text
  | .char c => [c]
  | .wildcard => Tools.wildcard
  | .narrowed digits => digitSetWildcard digits

def Slot.isNarrowed : Slot → Bool
  | .narrowed _ => true
  | _ => false

/-- The slot may stand for the literal or the wildcard at this position: the digits in it occur
there in some path. -/
def Slot.Narrows (paths : List Text) (pos : ℕ) : Option Literal → Slot → Prop
  | some literal, .char c => c = literal.1
  | none, .char c => c.isDigit = true ∧ ∃ path ∈ paths, path[pos]? = some c
  | none, .wildcard => True
  | none, .narrowed digits =>
      ∀ c ∈ digits, c.isDigit = true ∧ ∃ path ∈ paths, path[pos]? = some c
  | some _, _ => False

/-- The glob is the pattern with digits in the place of some wildcards, and with at most one class
that is narrowed. -/
def Specialises (pattern : Pattern) (paths : List Text) (glob : Text) : Prop :=
  ∃ slots : List Slot, glob = slots.flatMap Slot.text ∧ slots.length = pattern.length ∧
    (∀ (pos : ℕ) (token : Option Literal) (slot : Slot), pattern[pos]? = some token →
      slots[pos]? = some slot → slot.Narrows paths pos token) ∧
    slots.countP Slot.isNarrowed ≤ 1

/-- The globs cover the paths and nothing that the pattern does not match. -/
structure NarrowsTo (limit : ℕ) (pattern : Pattern) (paths : List Text) (globs : List Text) :
    Prop where
  few : globs.length ≤ limit
  covers : ∀ path ∈ paths, ∃ glob ∈ globs, StartsWithMatch glob path
  sound : ∀ glob ∈ globs, ∀ text, Matches glob text → Matches (render pattern) text
  specialises : ∀ glob ∈ globs, Specialises pattern paths glob

theorem accepted_append {word : Text} (hword : ∀ c ∈ word, c ≠ '[') (rest : Text) :
    acceptedFrom none (word ++ rest) = (word.map fun c => (· == c)) ++ acceptedFrom none rest := by
  induction word with
  | nil => rfl
  | cons c word ih =>
      obtain ⟨hc, hword⟩ := List.forall_mem_cons.mp hword
      rw [List.cons_append, accepted_char hc, ih hword, List.map_cons, List.cons_append]

/-- Characters match themselves. -/
theorem matches_append {word : Text} (hword : ∀ c ∈ word, c ≠ '[') {rest text : Text} :
    Matches (word ++ rest) text ↔ ∃ tail, text = word ++ tail ∧ Matches rest tail := by
  have hself : ∀ {word left : Text}, List.Forall₂ (fun accepts c => accepts c = true)
      (word.map fun c => (· == c)) left ↔ left = word := by
    intro word left
    rw [List.forall₂_map_left_iff]
    simp only [beq_iff_eq]
    constructor
    · intro h
      exact (List.forall₂_eq_eq_eq ▸ h.imp fun _ _ h => h.symm : word = left).symm
    · rintro rfl
      exact List.forall₂_same.mpr fun _ _ => rfl
  rw [Matches, accepted_append hword, forall₂_append_iff]
  constructor
  · rintro ⟨left, right, rfl, hleft, hright⟩
    exact ⟨right, by rw [hself.mp hleft], hright⟩
  · rintro ⟨tail, rfl, hmatches⟩
    exact ⟨word, tail, rfl, hself.mpr rfl, hmatches⟩

/-- The pattern itself as slots. -/
def slotOf : Option Literal → Slot
  | none => .wildcard
  | some literal => .char literal.1

theorem flatMap_slotOf (pattern : Pattern) : (pattern.map slotOf).flatMap Slot.text =
    render pattern := by
  induction pattern with
  | nil => rfl
  | cons token pattern ih =>
      rw [List.map_cons, List.flatMap_cons, ih]
      cases token <;> rfl

theorem flatMap_chars (word : Text) : (word.map Slot.char).flatMap Slot.text = word := by
  induction word with
  | nil => rfl
  | cons c word ih =>
      rw [List.map_cons, List.flatMap_cons, ih]
      rfl

theorem countP_narrowed_eq_zero {slots : List Slot} (hslots : ∀ slot ∈ slots,
    slot.isNarrowed = false) : slots.countP Slot.isNarrowed = 0 := by
  rw [List.countP_eq_zero]
  intro slot hslot
  rw [hslots slot hslot]
  exact Bool.false_ne_true

theorem isNarrowed_slotOf (token : Option Literal) : (slotOf token).isNarrowed = false := by
  cases token <;> rfl

/-- A glob that starts like one of the paths. -/
theorem specialises_of_fills {front back : Pattern} {paths : List Text} {word path : Text}
    (hfills : Fills front word) (hpath : path ∈ paths) (hstarts : word <+: path)
    {slots : List Slot} (hlength : slots.length = back.length)
    (hslots : ∀ (pos : ℕ) (token : Option Literal) (slot : Slot), back[pos]? = some token →
      slots[pos]? = some slot → slot.Narrows paths (front.length + pos) token)
    (hnarrowed : slots.countP Slot.isNarrowed ≤ 1) :
    Specialises (front ++ back) paths (word ++ slots.flatMap Slot.text) := by
  have hsame : word.length = front.length := (List.Forall₂.length_eq hfills).symm
  refine ⟨word.map Slot.char ++ slots, ?_, ?_, ?_, ?_⟩
  · rw [List.flatMap_append, flatMap_chars]
  · rw [List.length_append, List.length_append, List.length_map, hsame, hlength]
  · intro pos token slot htoken hslot
    by_cases hpos : pos < front.length
    · rw [List.getElem?_append_left hpos] at htoken
      rw [List.getElem?_append_left (by rw [List.length_map, hsame]; exact hpos),
        List.getElem?_map] at hslot
      obtain ⟨c, hc, rfl⟩ := Option.map_eq_some_iff.mp hslot
      have hfits : Fits token c := by
        obtain ⟨hlt, rfl⟩ := List.getElem?_eq_some_iff.mp htoken
        obtain ⟨hlt', rfl⟩ := List.getElem?_eq_some_iff.mp hc
        exact List.Forall₂.get hfills hlt hlt'
      have hread : path[pos]? = some c := by
        obtain ⟨tail, rfl⟩ := hstarts
        rw [List.getElem?_append_left (hsame ▸ hpos)]
        exact hc
      cases token with
      | none => exact ⟨hfits, path, hpath, hread⟩
      | some literal => exact hfits
    · have hge := Nat.le_of_not_lt hpos
      rw [List.getElem?_append_right hge] at htoken
      rw [List.getElem?_append_right (by rw [List.length_map, hsame]; exact hge),
        List.length_map, hsame] at hslot
      have hnarrows := hslots _ _ _ htoken hslot
      rwa [Nat.add_sub_cancel' hge] at hnarrows
  · rw [List.countP_append, countP_narrowed_eq_zero]
    · rw [Nat.zero_add]
      exact hnarrowed
    · intro slot hslot
      obtain ⟨c, -, rfl⟩ := List.mem_map.mp hslot
      rfl

section Result

variable {front rest : Pattern} {literals : List Literal} {paths : List Text} {word : Text}
  {entry : Text × List Text} {limit : ℕ} {current : Dict Text (List Text)}

/-- A glob without wildcards. -/
theorem Group.specialises (hgroup : Group front (literals.map some) paths word entry) :
    Specialises (front ++ literals.map some) paths entry.1 := by
  obtain ⟨path, hpath⟩ := List.exists_mem_of_ne_nil _ hgroup.nonempty
  obtain ⟨hmem, hstarts⟩ := hgroup.begins path hpath
  rw [hgroup.glob, ← flatMap_slotOf]
  apply specialises_of_fills hgroup.fills hmem hstarts (List.length_map _)
  · intro pos token slot htoken hslot
    rw [List.getElem?_map, htoken] at hslot
    obtain rfl := Option.some.inj hslot
    obtain ⟨literal, -, rfl⟩ := List.mem_map.mp (List.mem_of_getElem? htoken)
    rfl
  · rw [countP_narrowed_eq_zero]
    · exact Nat.zero_le 1
    · intro slot hslot
      obtain ⟨token, -, rfl⟩ := List.mem_map.mp hslot
      exact isNarrowed_slotOf token

/-- Where no wildcard is left. -/
theorem Covered.done (hcovered : Covered limit front (literals.map some) paths current)
    (hbegins : ∀ path ∈ paths, Begins (front ++ literals.map some) path) :
    NarrowsTo limit (front ++ literals.map some) paths current.keys := by
  have hkeys : ∀ glob ∈ current.keys, ∃ entry ∈ current.entries, ∃ word, entry.1 = glob ∧
      Group front (literals.map some) paths word entry ∧
        Fills (front ++ literals.map some) glob := by
    intro glob hglob
    obtain ⟨entry, hentry, rfl⟩ := List.mem_map.mp hglob
    obtain ⟨word, hgroup⟩ := hcovered.groups entry hentry
    refine ⟨entry, hentry, word, rfl, hgroup, ?_⟩
    rw [hgroup.glob, render_literals]
    exact forall₂_append_iff.mpr ⟨_, _, rfl, hgroup.fills, fills_literals.mpr rfl⟩
  have hmatches : ∀ glob ∈ current.keys, ∀ text, Matches glob text ↔ text = glob := by
    intro glob hglob text
    obtain ⟨entry, -, word, -, -, hfills⟩ := hkeys glob hglob
    have happend := @matches_append glob hfills.no_bracket [] text
    rw [List.append_nil] at happend
    rw [happend]
    constructor
    · rintro ⟨tail, rfl, hnil⟩
      cases hnil
      exact List.append_nil _
    · rintro rfl
      exact ⟨[], (List.append_nil _).symm, .nil⟩
  constructor
  · rw [Dict.keys, List.length_map]
    exact hcovered.few
  · intro path hpath
    obtain ⟨entry, hentry, hmem⟩ := hcovered.covers path hpath
    obtain ⟨word, hgroup⟩ := hcovered.groups entry hentry
    have hglob : entry.1 ∈ current.keys := List.mem_map_of_mem hentry
    refine ⟨entry.1, hglob, entry.1, ?_, (hmatches _ hglob _).mpr rfl⟩
    obtain ⟨right, tail, rfl, hright⟩ :=
      (hbegins path hpath).rest hgroup.fills (hgroup.begins path hmem).2
    rw [hgroup.glob, render_literals, fills_literals.mp hright]
    exact List.prefix_append ..
  · intro glob hglob text htext
    obtain rfl := (hmatches glob hglob text).mp htext
    obtain ⟨entry, -, word, -, -, hfills⟩ := hkeys text hglob
    exact matches_render.mpr hfills
  · intro glob hglob
    obtain ⟨entry, hentry, word, rfl, hgroup, -⟩ := hkeys glob hglob
    exact hgroup.specialises

/-- The digits of a group. -/
theorem Group.digitsAt (hgroup : Group front (literals.map some ++ none :: rest) paths word entry)
    (hbegins : ∀ path ∈ paths, Begins (front ++ (literals.map some ++ none :: rest)) path) :
    digitsAt (front.length + literals.length) entry.2 ≠ [] ∧
      ∀ c ∈ digitsAt (front.length + literals.length) entry.2, c.isDigit = true ∧
        ∃ path ∈ paths, path[front.length + literals.length]? = some c := by
  constructor
  · obtain ⟨path, hpath⟩ := List.exists_mem_of_ne_nil _ hgroup.nonempty
    obtain ⟨digit, last, tail, -, -, -, hread⟩ := hgroup.digit hbegins hpath
    exact List.ne_nil_of_mem (mem_digitsAt.mpr ⟨path, hpath, hread⟩)
  · intro c hc
    obtain ⟨path, hpath, hread⟩ := mem_digitsAt.mp hc
    obtain ⟨digit, last, tail, hdigit, -, -, hat⟩ := hgroup.digit hbegins hpath
    obtain rfl := Option.some.inj (hread.symm.trans hat)
    exact ⟨hdigit, path, (hgroup.begins path hpath).1, hread⟩

/-- A glob with a class of digits. -/
theorem Group.specialises_narrowed
    (hgroup : Group front (literals.map some ++ none :: rest) paths word entry)
    (hbegins : ∀ path ∈ paths, Begins (front ++ (literals.map some ++ none :: rest)) path) :
    Specialises (front ++ (literals.map some ++ none :: rest)) paths
      (opened word literals ++
        digitSetWildcard (Tools.digitsAt (front.length + literals.length) entry.2) ++
          render rest) := by
  obtain ⟨path, hpath⟩ := List.exists_mem_of_ne_nil _ hgroup.nonempty
  obtain ⟨hmem, -⟩ := hgroup.begins path hpath
  obtain ⟨digit, last, tail, -, -, heq, -⟩ := hgroup.digit hbegins hpath
  have hstarts : opened word literals <+: path := ⟨digit :: (last ++ tail), heq.symm⟩
  have hdigits := (hgroup.digitsAt hbegins).2
  generalize Tools.digitsAt (front.length + literals.length) entry.2 = digits at hdigits ⊢
  have htext : digitSetWildcard digits ++ render rest =
      (Slot.narrowed digits :: rest.map slotOf).flatMap Slot.text := by
    rw [List.flatMap_cons, flatMap_slotOf]
    rfl
  rw [← List.append_assoc, List.append_assoc (opened word literals), htext]
  apply specialises_of_fills hgroup.fills_opened hmem hstarts
  · rw [List.length_cons, List.length_cons, List.length_map]
  · intro pos token slot htoken hslot
    cases pos with
    | zero =>
        obtain rfl := Option.some.inj htoken
        obtain rfl := Option.some.inj hslot
        rw [List.length_append, List.length_map, Nat.add_zero]
        exact hdigits
    | succ pos =>
        rw [List.getElem?_cons_succ] at htoken hslot
        rw [List.getElem?_map, htoken] at hslot
        obtain rfl := Option.some.inj hslot
        cases token with
        | none => exact trivial
        | some literal => exact rfl
  · rw [List.countP_cons, countP_narrowed_eq_zero]
    · exact Nat.le_refl 1
    · intro slot hslot
      obtain ⟨token, -, rfl⟩ := List.mem_map.mp hslot
      exact isNarrowed_slotOf token

/-- Where there are too many digits for the limit. -/
theorem Covered.narrow
    (hcovered : Covered limit front (literals.map some ++ none :: rest) paths current)
    (hbegins : ∀ path ∈ paths, Begins (front ++ (literals.map some ++ none :: rest)) path) :
    NarrowsTo limit (front ++ (literals.map some ++ none :: rest)) paths
      ((current.entries.map fun entry => (entry.1,
        digitsAt (front.length + literals.length) entry.2)).map fun entry =>
          replaceFirst wildcard (digitSetWildcard entry.2) entry.1) := by
  have hglob : ∀ entry ∈ current.entries, ∃ (word : Text) (accepts : Char → Bool),
      Group front (literals.map some ++ none :: rest) paths word entry ∧
      replaceFirst wildcard (digitSetWildcard (digitsAt (front.length + literals.length) entry.2))
        entry.1 = opened word literals ++
          digitSetWildcard (digitsAt (front.length + literals.length) entry.2) ++ render rest ∧
      (∀ c ∈ digitsAt (front.length + literals.length) entry.2, accepts c = true) ∧
      (∀ c, accepts c = true → c.isDigit = true) ∧
      ∀ text, Matches (replaceFirst wildcard (digitSetWildcard
          (digitsAt (front.length + literals.length) entry.2)) entry.1) text ↔
        ∃ c last, text = opened word literals ++ c :: last ∧ accepts c = true ∧
          Fills rest last := by
    intro entry hentry
    obtain ⟨word, hgroup⟩ := hcovered.groups entry hentry
    obtain ⟨hne, hdigits⟩ := hgroup.digitsAt hbegins
    obtain ⟨accepts, haccepted, hin, hout⟩ := accepted_digitSetWildcard hne
      (fun c hc => (hdigits c hc).1) (pairwise_sortedSet _) (render rest)
    refine ⟨word, accepts, hgroup, hgroup.replace _, hin, hout, fun text => ?_⟩
    rw [hgroup.replace, List.append_assoc, matches_append hgroup.fills_opened.no_bracket]
    simp only [Matches, haccepted, List.forall₂_cons_left_iff]
    constructor
    · rintro ⟨tail, rfl, c, last, hc, hlast, rfl⟩
      exact ⟨c, last, rfl, hc, matches_render.mp hlast⟩
    · rintro ⟨c, last, rfl, hc, hlast⟩
      exact ⟨c :: last, rfl, c, last, hc, matches_render.mpr hlast, rfl⟩
  rw [List.map_map]
  constructor
  · rw [List.length_map]
    exact hcovered.few
  · intro path hpath
    obtain ⟨entry, hentry, hmem⟩ := hcovered.covers path hpath
    obtain ⟨word, accepts, hgroup, -, hin, -, hmatches⟩ := hglob entry hentry
    obtain ⟨digit, last, tail, -, hlast, heq, hread⟩ := hgroup.digit hbegins hmem
    refine ⟨_, List.mem_map_of_mem hentry, opened word literals ++ digit :: last, ?_, ?_⟩
    · rw [heq]
      exact ⟨tail, by rw [List.append_assoc, List.cons_append]⟩
    · exact (hmatches _).mpr ⟨digit, last, rfl, hin digit (mem_digitsAt.mpr ⟨path, hmem, hread⟩),
        hlast⟩
  · intro glob hmem text htext
    obtain ⟨entry, hentry, rfl⟩ := List.mem_map.mp hmem
    obtain ⟨word, accepts, hgroup, -, -, hout, hmatches⟩ := hglob entry hentry
    obtain ⟨c, last, rfl, hc, hlast⟩ := (hmatches text).mp htext
    rw [matches_render, ← List.append_assoc]
    exact forall₂_append_iff.mpr ⟨_, _, rfl, hgroup.fills_opened, .cons (hout c hc) hlast⟩
  · intro glob hmem
    obtain ⟨entry, hentry, rfl⟩ := List.mem_map.mp hmem
    obtain ⟨word, accepts, hgroup, heq, -⟩ := hglob entry hentry
    dsimp only [Function.comp]
    rw [heq]
    exact hgroup.specialises_narrowed hbegins

/-- A pattern up to its first wildcard. -/
theorem literals_or_wildcard (pattern : Pattern) : ∃ literals : List Literal,
    pattern = literals.map some ∨ ∃ rest, pattern = literals.map some ++ none :: rest := by
  induction pattern with
  | nil => exact ⟨[], .inl rfl⟩
  | cons token pattern ih =>
      cases token with
      | none => exact ⟨[], .inr ⟨pattern, rfl⟩⟩
      | some literal =>
          obtain ⟨literals, rfl | ⟨rest, rfl⟩⟩ := ih
          · exact ⟨literal :: literals, .inl rfl⟩
          · exact ⟨literal :: literals, .inr ⟨rest, rfl⟩⟩

/-- The loop from any round on. -/
theorem Covered.constrainFrom (hne : paths ≠ []) (hcovered : Covered limit front rest paths current)
    (hbegins : ∀ path ∈ paths, Begins (front ++ rest) path) :
    ∃ globs, (∀ fuel, rest.length < fuel → constrainFrom limit fuel current = .ok globs) ∧
      NarrowsTo limit (front ++ rest) paths globs := by
  -- each round takes the first wildcard from what is left
  obtain ⟨size, hsize⟩ : ∃ size, rest.length = size := ⟨_, rfl⟩
  induction size using Nat.strongRecOn generalizing front rest current with
  | ind size ih =>
  obtain ⟨path, hpath⟩ := List.exists_mem_of_ne_nil _ hne
  obtain ⟨⟨first, group⟩, others, hentries⟩ :
      ∃ entry others, current.entries = entry :: others := by
    obtain ⟨entry, hentry, -⟩ := hcovered.covers path hpath
    exact List.exists_cons_of_ne_nil (List.ne_nil_of_mem hentry)
  have hkeys : current.keys = first :: others.map Prod.fst := by
    rw [Dict.keys, hentries, List.map_cons]
  obtain ⟨word, hgroup⟩ := hcovered.groups (first, group) (hentries ▸ List.mem_cons_self ..)
  obtain ⟨literals, rfl | ⟨rest, rfl⟩⟩ := literals_or_wildcard rest
  · refine ⟨current.keys, fun fuel hfuel => ?_, hcovered.done hbegins⟩
    obtain ⟨fuel, rfl⟩ := Nat.exists_eq_add_of_lt hfuel
    have hfind : find wildcard first = none := by
      have hglob := hgroup.glob
      dsimp only at hglob
      rw [hglob, render_literals]
      have hfills : Fills (front ++ literals.map some) (word ++ literals.map (·.1)) :=
        forall₂_append_iff.mpr ⟨word, _, rfl, hgroup.fills, fills_literals.mpr rfl⟩
      exact find_eq_none hfills.no_bracket
    rw [Tools.constrainFrom, hkeys]
    dsimp only
    rw [hfind]
  · have hfind : find wildcard first = some (front.length + literals.length) := by
      have hglob := hgroup.glob_opened
      dsimp only at hglob
      rw [hglob, find_wildcard hgroup.fills_opened.no_bracket, hgroup.length_opened]
    have hround : ∀ fuel, Tools.constrainFrom limit (fuel + 1) current =
        if limit < ((current.entries.map fun entry => (entry.1,
            digitsAt (front.length + literals.length) entry.2)).map
              fun entry => entry.2.length).sum then
          .ok ((current.entries.map fun entry => (entry.1,
            digitsAt (front.length + literals.length) entry.2)).map fun entry =>
              replaceFirst wildcard (digitSetWildcard entry.2) entry.1)
        else Tools.constrainFrom limit fuel ((current.entries.map fun entry => (entry.1,
          digitsAt (front.length + literals.length) entry.2)).foldl
            (specialise (front.length + literals.length)) current) := by
      intro fuel
      rw [Tools.constrainFrom, hkeys]
      dsimp only
      rw [hfind]
      dsimp only
      rw [hcovered.charSets_eq hbegins]
    by_cases hmany : limit < ((current.entries.map fun entry => (entry.1,
        digitsAt (front.length + literals.length) entry.2)).map fun entry => entry.2.length).sum
    · refine ⟨_, fun fuel hfuel => ?_, hcovered.narrow hbegins⟩
      obtain ⟨fuel, rfl⟩ := Nat.exists_eq_add_of_lt hfuel
      rw [hround, if_pos hmany]
    · have hnext := hcovered.round hbegins (Nat.le_of_not_lt hmany)
      have hlength : rest.length < size := by
        rw [← hsize, List.length_append, List.length_cons]
        omega
      have hsame : front ++ (literals.map some ++ [none]) ++ rest =
          front ++ (literals.map some ++ none :: rest) := by
        simp only [List.append_assoc, List.singleton_append]
      obtain ⟨globs, hglobs, hnarrows⟩ := ih rest.length hlength hnext (hsame ▸ hbegins) rfl
      refine ⟨globs, fun fuel hfuel => ?_, hsame ▸ hnarrows⟩
      obtain ⟨fuel, rfl⟩ := Nat.exists_eq_add_of_lt hfuel
      rw [hround, if_neg hmany]
      apply hglobs
      rw [List.length_append, List.length_cons]
      omega

/-- Narrowed globs still cover all paths. -/
theorem constrainGlob_narrows (pattern : Pattern) (paths : List Text) (limit : ℕ) (hne : paths ≠ [])
    (hlimit : 1 ≤ limit) (hpaths : ∀ path ∈ paths, StartsWithMatch (render pattern) path) :
    ∃ globs, (∃ rounds, ∀ fuel, rounds ≤ fuel →
        constrainGlob fuel (render pattern) paths limit = .ok globs) ∧
      NarrowsTo limit pattern paths globs := by
  have hentries : ((∅ : Dict Text (List Text)).set (render pattern) paths).entries =
      [(render pattern, paths)] := entries_set_new _ rfl
  have hcovered : Covered limit [] pattern paths
      ((∅ : Dict Text (List Text)).set (render pattern) paths) := by
    constructor
    · intro entry hentry
      rw [hentries] at hentry
      obtain rfl := List.mem_singleton.mp hentry
      exact ⟨[], ⟨rfl, .nil, hne, fun path hpath => ⟨hpath, List.nil_prefix⟩⟩⟩
    · intro path hpath
      exact ⟨_, hentries ▸ List.mem_singleton.mpr rfl, hpath⟩
    · rw [hentries]
      exact hlimit
  obtain ⟨globs, hglobs, hnarrows⟩ := hcovered.constrainFrom hne fun path hpath =>
    startsWithMatch_render.mp (hpaths path hpath)
  exact ⟨globs, ⟨pattern.length + 1, fun fuel hfuel => hglobs fuel hfuel⟩, hnarrows⟩

theorem narrow_two_days :
    let pattern : Pattern := [some ⟨'/', by decide⟩, none, some ⟨'.', by decide⟩]
    let paths := ["/1.tsv".toList, "/3.tsv".toList]
    ∃ globs, (∃ rounds, ∀ fuel, rounds ≤ fuel →
        constrainGlob fuel (render pattern) paths 1 = .ok globs) ∧
      NarrowsTo 1 pattern paths globs := by
  refine constrainGlob_narrows _ _ 1 (by decide) (by decide) fun path hpath => ?_
  rcases List.mem_pair.mp hpath with rfl | rfl
  · exact startsWithMatch_render.mpr ⟨"/1.".toList, by decide,
      .cons (Eq.refl '/') (.cons (Eq.refl true) (.cons (Eq.refl '.') .nil))⟩
  · exact startsWithMatch_render.mpr ⟨"/3.".toList, by decide,
      .cons (Eq.refl '/') (.cons (Eq.refl true) (.cons (Eq.refl '.') .nil))⟩

end Result

end Trun.Tools
