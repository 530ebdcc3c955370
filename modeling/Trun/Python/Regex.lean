import Mathlib.Data.List.Infix

/-!
# Regular expressions

`re.match` and `re.sub` for expressions of characters, runs of a class,
alternatives and groups.  A match is searched for with backtracking: the matches
of an expression at the beginning of a text come in the order in which they are
tried, and the first one counts.
-/

namespace Trun

/-- A regular expression; `run` is `c+` for a class of characters. -/
inductive Regex (α : Type) where
  | empty
  | char (admits : α → Bool)
  | run (admits : α → Bool)
  | seq (first second : Regex α)
  | alt (left right : Regex α)
  | group (name : Option String) (body : Regex α)

namespace Regex

variable {α : Type}

/-- The groups of a match with their texts, and what comes after the match. -/
structure Match (α : Type) where
  groups : List (Option String × List α)
  rest : List α
  deriving DecidableEq

/-- A match with one after it. -/
def Match.append (front back : Match α) : Match α := ⟨front.groups ++ back.groups, back.rest⟩

@[simp] theorem Match.append_nil_left (rest : List α) :
    Match.append ⟨[], rest⟩ = (id : Match α → Match α) := rfl

/-- `r?` -/
def opt (r : Regex α) : Regex α := alt r empty

def literal [DecidableEq α] : List α → Regex α
  | [] => empty
  | c :: rest => seq (char (· = c)) (literal rest)

/-- What is left after `c+`, the longest run first. -/
def runs (admits : α → Bool) : List α → List (List α)
  | [] => []
  | c :: rest => if admits c then runs admits rest ++ [rest] else []

/-- The matches at the beginning of a text. -/
def matches_ : Regex α → List α → List (Match α)
  | empty, text => [⟨[], text⟩]
  | char _, [] => []
  | char admits, c :: rest => if admits c then [⟨[], rest⟩] else []
  | run admits, text => (runs admits text).map fun rest => ⟨[], rest⟩
  | seq first second, text => (first.matches_ text).flatMap fun front =>
      (second.matches_ front.rest).map front.append
  | alt left right, text => left.matches_ text ++ right.matches_ text
  | group name body, text => (body.matches_ text).map fun inner =>
      ⟨(name, text.take (text.length - inner.rest.length)) :: inner.groups, inner.rest⟩

section Equations

variable (admits : α → Bool) (first second left right body : Regex α) (c : α) (rest text : List α)

@[simp] theorem matches_empty : (empty : Regex α).matches_ text = [⟨[], text⟩] := rfl

@[simp] theorem matches_char_nil : (char admits).matches_ [] = [] := rfl

@[simp] theorem matches_char_cons :
    (char admits).matches_ (c :: rest) = if admits c then [⟨[], rest⟩] else [] := rfl

@[simp] theorem matches_run :
    (run admits).matches_ text = (runs admits text).map fun rest => ⟨[], rest⟩ := rfl

@[simp] theorem matches_seq : (seq first second).matches_ text =
    (first.matches_ text).flatMap fun front =>
      (second.matches_ front.rest).map front.append := rfl

@[simp] theorem matches_alt :
    (alt left right).matches_ text = left.matches_ text ++ right.matches_ text := rfl

@[simp] theorem matches_group (name : Option String) : (group name body).matches_ text =
    (body.matches_ text).map fun inner =>
      ⟨(name, text.take (text.length - inner.rest.length)) :: inner.groups, inner.rest⟩ := rfl

end Equations

def match? (r : Regex α) (text : List α) : Option (Match α) := (r.matches_ text).head?

/-- `re.sub`, after as many characters as are still part of the last match. -/
def subFrom (r : Regex α) (repl : List α) : ℕ → List α → List α
  | _, [] => []
  | skip + 1, _ :: rest => subFrom r repl skip rest
  | 0, c :: rest =>
    match r.match? (c :: rest) with
    | some found => repl ++ subFrom r repl (rest.length - found.rest.length) rest
    | none => c :: subFrom r repl 0 rest

/-- `re.sub`, for an expression that matches no empty text. -/
def sub (r : Regex α) (repl text : List α) : List α := subFrom r repl 0 text

/-! ## The first match -/

section First

variable {r left right first second : Regex α} {text rest : List α} {admits : α → Bool} {c : α}

/-- A match is found in every text. -/
def Total (r : Regex α) : Prop := ∀ text, (r.match? text).isSome

theorem match?_alt (left right : Regex α) (text : List α) :
    (alt left right).match? text = (left.match? text).or (right.match? text) := by
  rw [match?, matches_alt, List.head?_append, match?, match?]

theorem match?_group (name : Option String) (body : Regex α) (text : List α) :
    (group name body).match? text = (body.match? text).map fun inner =>
      ⟨(name, text.take (text.length - inner.rest.length)) :: inner.groups, inner.rest⟩ := by
  rw [match?, matches_group, List.head?_map, match?]

theorem matches_literal [DecidableEq α] (word rest : List α) :
    (literal word).matches_ (word ++ rest) = [⟨[], rest⟩] := by
  induction word with
  | nil => rfl
  | cons c word ih => simp [literal, ih]

theorem matches_literal_of_not_prefix [DecidableEq α] {word : List α} (hword : ¬word <+: text) :
    (literal word).matches_ text = [] := by
  induction word generalizing text with
  | nil => exact absurd List.nil_prefix hword
  | cons c word ih =>
      cases text with
      | nil => rfl
      | cons d text =>
          by_cases hd : d = c
          · subst hd
            have hrest : ¬word <+: text := fun hstarts =>
              hword (List.cons_prefix_cons.mpr ⟨rfl, hstarts⟩)
            simp [literal, ih hrest]
          · simp [literal, hd]

theorem match?_literal [DecidableEq α] (word rest : List α) :
    (literal word).match? (word ++ rest) = some ⟨[], rest⟩ := by
  rw [match?, matches_literal, List.head?_cons]

theorem match?_literal_of_not_starts [DecidableEq α] {word : List α} (hword : ¬word <+: text) :
    (literal word).match? text = none := by
  rw [match?, matches_literal_of_not_prefix hword, List.head?_nil]

theorem match?_opt (r : Regex α) (text : List α) :
    (opt r).match? text = some ((r.match? text).getD ⟨[], text⟩) := by
  rw [opt, match?_alt]
  cases r.match? text <;> rfl

theorem total_empty : (empty : Regex α).Total := fun _ => rfl

theorem total_opt (r : Regex α) : (opt r).Total := by
  intro text
  rw [match?_opt]
  rfl

theorem head?_flatMap_of_isSome {β γ : Type} (xs : List β) {f : β → List γ}
    (hsome : ∀ x, (f x).head?.isSome) :
    (xs.flatMap f).head? = xs.head?.bind fun x => (f x).head? := by
  cases xs with
  | nil => rfl
  | cons x xs =>
      rw [List.flatMap_cons, List.head?_append, List.head?_cons, Option.bind_some]
      exact Option.or_of_isSome (hsome x)

/-- No backtracking into the first part where the second always matches. -/
theorem match?_seq (first : Regex α) (htotal : second.Total) (text : List α) :
    (seq first second).match? text =
      (first.match? text).bind fun front => (second.match? front.rest).map front.append := by
  rw [match?, matches_seq, head?_flatMap_of_isSome]
  · simp only [List.head?_map]
    rfl
  · intro front
    rw [List.head?_map, Option.isSome_map]
    exact htotal front.rest

theorem total_seq (hfirst : first.Total) (hsecond : second.Total) : (seq first second).Total := by
  intro text
  obtain ⟨front, hfront⟩ := Option.isSome_iff_exists.mp (hfirst text)
  rw [match?_seq first hsecond, hfront, Option.bind_some, Option.isSome_map]
  exact hsecond front.rest

/-- An optional part is tried first with what it matches. -/
theorem match?_opt_seq (first second : Regex α) (text : List α) :
    (seq (opt first) second).match? text =
      ((seq first second).match? text).or (second.match? text) := by
  simp [match?, opt]

theorem match?_char_seq (second : Regex α) (hc : admits c = true) :
    (seq (char admits) second).match? (c :: rest) = second.match? rest := by
  simp [match?, hc]

theorem match?_char_seq_of_not (second : Regex α) (htext : ∀ c ∈ text.head?, admits c = false) :
    (seq (char admits) second).match? text = none := by
  cases text with
  | nil => rfl
  | cons c rest => simp [match?, htext c rfl]

/-- Of all shorter runs none goes on. -/
theorem flatMap_runs {β : Type} {word : List α} {f : List α → List β} (hword : word ≠ [])
    (hadmits : ∀ c ∈ word, admits c = true) (hrest : ∀ c ∈ rest.head?, admits c = false)
    (hstop : ∀ c rest, admits c = true → f (c :: rest) = []) :
    (runs admits (word ++ rest)).flatMap f = f rest := by
  induction word with
  | nil => exact absurd rfl hword
  | cons c word ih =>
      have hc := hadmits c List.mem_cons_self
      rw [List.cons_append, runs, if_pos hc, List.flatMap_append, List.flatMap_singleton]
      cases word with
      | nil =>
          have hnone : runs admits rest = [] := by
            cases rest with
            | nil => rfl
            | cons d rest => rw [runs, hrest d rfl]; rfl
          rw [List.nil_append, hnone, List.flatMap_nil, List.nil_append]
      | cons d word =>
          have hd := hadmits d (List.mem_cons_of_mem c List.mem_cons_self)
          rw [List.cons_append, hstop d _ hd, List.append_nil]
          exact ih (List.cons_ne_nil d word) fun e he => hadmits e (List.mem_cons_of_mem c he)

/-- A group of a run takes all of the run where the next part matches nothing of it. -/
theorem match?_run_seq (name : Option String) (second : Regex α) {word : List α} (hword : word ≠ [])
    (hadmits : ∀ c ∈ word, admits c = true) (hrest : ∀ c ∈ rest.head?, admits c = false)
    (hstop : ∀ c rest, admits c = true → second.match? (c :: rest) = none) :
    (seq (group name (run admits)) second).match? (word ++ rest) =
      (second.match? rest).map (Match.append ⟨[(name, word)], rest⟩) := by
  have hflat := flatMap_runs (f := fun after => (second.matches_ after).map
    (Match.append ⟨[(name, (word ++ rest).take ((word ++ rest).length - after.length))], after⟩))
    hword hadmits hrest (by
      intro c after hc
      rw [List.head?_eq_none_iff.mp (hstop c after hc), List.map_nil])
  rw [match?, matches_seq, matches_group, matches_run, List.map_map, List.flatMap_map]
  refine (congrArg List.head? hflat).trans ?_
  rw [List.head?_map, List.length_append, Nat.add_sub_cancel, List.take_left' rfl]
  rfl

theorem match?_run_seq_of_not (name : Option String) (second : Regex α)
    (htext : ∀ c ∈ text.head?, admits c = false) :
    (seq (group name (run admits)) second).match? text = none := by
  cases text with
  | nil => rfl
  | cons c rest => simp [match?, runs, htext c rfl]

end First

/-! ## Substitution -/

section Sub

variable {r : Regex α} {repl rest : List α} {c : α}

theorem subFrom_eq_drop (r : Regex α) (repl : List α) (skip : ℕ) (text : List α) :
    subFrom r repl skip text = sub r repl (text.drop skip) := by
  induction text generalizing skip with
  | nil => cases skip <;> rfl
  | cons c rest ih =>
      cases skip with
      | zero => rfl
      | succ skip => exact ih skip

theorem sub_nil : sub r repl [] = [] := rfl

theorem sub_of_none (hnone : r.match? (c :: rest) = none) :
    sub r repl (c :: rest) = c :: sub r repl rest := by
  rw [sub, subFrom, hnone, sub]

/-- A match that takes at least one character is replaced. -/
theorem sub_of_some {found : Match α} (hsome : r.match? (c :: rest) = some found)
    (hafter : found.rest <:+ rest) :
    sub r repl (c :: rest) = repl ++ sub r repl found.rest := by
  rw [sub, subFrom, hsome]
  obtain ⟨front, rfl⟩ := hafter
  simp only [List.length_append, Nat.add_sub_cancel, subFrom_eq_drop, List.drop_left]

end Sub

end Regex

end Trun
