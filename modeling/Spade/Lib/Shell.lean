import Mathlib.Data.List.Basic

set_option autoImplicit false

/-!
# Words of a shell command

The token recognition and quote removal of the POSIX shell, for a list of simple commands over
any alphabet. Where an expansion, an operator or a pattern is not quoted, what the shell does is
not a matter of the text alone, and nothing is read.
-/
namespace Spade.Shell

/-- What a character is to the shell. -/
inductive Meaning where
  | plain
  | blank
  | newline
  | semicolon
  | backslash
  | quote
  | doubleQuote
  /-- Starts a comment at the beginning of a word. -/
  | comment
  /-- Keeps its meaning between double quotes. -/
  | expansion
  /-- An operator, a pattern, a brace, a tilde or an assignment. -/
  | special
  | nul
  deriving DecidableEq, Repr

inductive Mode (A : Type) where
  | unquoted
  | escaped
  | single
  | double
  | doubleEscaped (b : A)
  | comment
  deriving DecidableEq, Repr

/-- The commands read, the words of the one being read, and the word being read. -/
structure State (A : Type) where
  commands : List (List (List A)) := []
  words : List (List A) := []
  word : Option (List A) := none
  mode : Mode A := .unquoted
  deriving DecidableEq, Repr

section
variable {A : Type}

def State.enter (s : State A) (m : Mode A) : State A :=
  { s with mode := m }

/-- An opening quote makes a word, an empty one if nothing follows. -/
def State.openWord (s : State A) (m : Mode A) : State A :=
  { s with word := some (s.word.getD []), mode := m }

def State.put (s : State A) (c : A) : State A :=
  { s with word := some (s.word.getD [] ++ [c]) }

def State.endWord (s : State A) : State A :=
  { s with words := s.words ++ s.word.toList, word := none }

def State.endCommand (s : State A) : State A :=
  { commands := if s.endWord.words = [] then s.commands else s.commands ++ [s.endWord.words] }

variable (meaning : A → Meaning)

def step (s : State A) (c : A) : Option (State A) :=
  match s.mode with
  | .unquoted =>
    match meaning c with
    | .plain => some (s.put c)
    | .blank => some s.endWord
    | .newline => some s.endCommand
    | .semicolon => if s.endWord.words = [] then none else some s.endCommand
    | .backslash => some (s.enter .escaped)
    | .quote => some (s.openWord .single)
    | .doubleQuote => some (s.openWord .double)
    | .comment => some (if s.word = none then s.enter .comment else s.put c)
    | .expansion | .special | .nul => none
  | .escaped =>
    match meaning c with
    | .newline => some (s.enter .unquoted)
    | .nul => none
    | _ => some ((s.put c).enter .unquoted)
  | .single =>
    match meaning c with
    | .quote => some (s.enter .unquoted)
    | .nul => none
    | _ => some (s.put c)
  | .double =>
    match meaning c with
    | .doubleQuote => some (s.enter .unquoted)
    | .backslash => some (s.enter (.doubleEscaped c))
    | .expansion | .nul => none
    | _ => some (s.put c)
  | .doubleEscaped b =>
    match meaning c with
    | .newline => some (s.enter .double)
    | .backslash | .doubleQuote | .expansion => some ((s.put c).enter .double)
    | .nul => none
    | _ => some (((s.put b).put c).enter .double)
  | .comment =>
    match meaning c with
    | .newline => some s.endCommand
    | .nul => none
    | _ => some s

def finish (s : State A) : Option (List (List (List A))) :=
  match s.mode with
  | .unquoted | .comment => some s.endCommand.commands
  | _ => none

def run (s : State A) (text : List A) : Option (State A) := text.foldlM (step meaning) s

/-- The words of each command of a text. -/
def commands (text : List A) : Option (List (List (List A))) :=
  (run meaning {} text).bind finish

end

section
variable {A : Type} {meaning : A → Meaning}

theorem run_append (s : State A) (t u : List A) :
    run meaning s (t ++ u) = (run meaning s t).bind (run meaning · u) := List.foldlM_append

@[simp] theorem run_nil (s : State A) : run meaning s [] = some s := rfl

@[simp] theorem run_cons (s : State A) (c : A) (t : List A) :
    run meaning s (c :: t) = (step meaning s c).bind (run meaning · t) := List.foldlM_cons

/-- Between single quotes each character but the quote is read as itself. -/
theorem step_single {c : A} (hc : meaning c ≠ .quote) (hnul : meaning c ≠ .nul) (s : State A)
    (hs : s.mode = .single) : step meaning s c = some (s.put c) := by
  unfold step
  rw [hs]
  cases hm : meaning c with
  | quote => exact absurd hm hc
  | nul => exact absurd hm hnul
  | _ => rfl

variable [DecidableEq A] {q b sp : A}

/-- A quote is written by closing the quotes, escaping it, and opening them again. -/
def quoteChar (q b c : A) : List A := if c = q then [q, b, q, q] else [c]

def quoteWord (q b : A) (a : List A) : List A := q :: (a.flatMap (quoteChar q b) ++ [q])

def quoteWords (q b sp : A) : List (List A) → List A
  | [] => []
  | a :: rest => quoteWord q b a ++ rest.flatMap fun a => sp :: quoteWord q b a

section
variable (hq : meaning q = .quote) (hb : meaning b = .backslash)
  (honly : ∀ c, meaning c = .quote → c = q)
include hq hb honly

theorem run_quoteChar {c : A} (hnul : meaning c ≠ .nul) {s : State A} {w : List A}
    (hs : s.mode = .single) (hw : s.word = some w) :
    run meaning s (quoteChar q b c) = some (s.put c) := by
  obtain ⟨cs, ws, word, mode⟩ := s
  cases hs
  cases hw
  unfold quoteChar
  split_ifs with h
  · subst h
    simp only [run_cons, run_nil, step, hq, hb, State.enter, State.put, State.openWord,
      Option.bind_some, Option.getD_some]
  · have hc : meaning c ≠ .quote := fun hm => h (honly c hm)
    rw [run_cons, step_single hc hnul _ rfl]
    rfl

/-- Within the quotes, the characters written are those read. -/
theorem run_quoteChars (a : List A) (hnul : ∀ c ∈ a, meaning c ≠ .nul) {s : State A}
    {w : List A} (hs : s.mode = .single) (hw : s.word = some w) :
    run meaning s (a.flatMap (quoteChar q b)) = some { s with word := some (w ++ a) } := by
  induction a generalizing s w with
  | nil =>
    rw [List.append_nil, ← hw]
    rfl
  | cons c a ih =>
    have hput : (s.put c).word = some (w ++ [c]) := by
      rw [State.put, hw]
      rfl
    rw [List.flatMap_cons, run_append,
      run_quoteChar hq hb honly (hnul c List.mem_cons_self) hs hw, Option.bind_some,
      @ih (fun d hd => hnul d (List.mem_cons_of_mem c hd)) (s.put c) _ hs hput, List.append_assoc]
    rfl

theorem run_quoteWord (a : List A) (hnul : ∀ c ∈ a, meaning c ≠ .nul) {s : State A}
    (hs : s.mode = .unquoted) (hw : s.word = none) :
    run meaning s (quoteWord q b a) = some { s with word := some a } := by
  obtain ⟨cs, ws, word, mode⟩ := s
  cases hs
  cases hw
  have hopen : step meaning (⟨cs, ws, none, .unquoted⟩ : State A) q =
      some ⟨cs, ws, some [], .single⟩ := by
    simp only [step, hq, State.openWord, Option.getD_none]
  have hclose : step meaning (⟨cs, ws, some a, .single⟩ : State A) q =
      some ⟨cs, ws, some a, .unquoted⟩ := by
    simp only [step, hq, State.enter]
  rw [quoteWord, run_cons, hopen, Option.bind_some, run_append,
    run_quoteChars hq hb honly a hnul rfl rfl, Option.bind_some, List.nil_append, run_cons, hclose]
  rfl

variable (hsp : meaning sp = .blank)
include hsp

/-- Quoted words, each after a blank. -/
theorem run_quoteWords (rest : List (List A)) (hnul : ∀ a ∈ rest, ∀ c ∈ a, meaning c ≠ .nul)
    {s : State A} {a : List A} (hs : s.mode = .unquoted) (hw : s.word = some a) :
    ∃ s', run meaning s (rest.flatMap fun a => sp :: quoteWord q b a) = some s' ∧
      s'.mode = .unquoted ∧ s'.commands = s.commands ∧
      s'.endWord.words = s.words ++ a :: rest := by
  induction rest generalizing s a with
  | nil => exact ⟨s, rfl, hs, rfl, by rw [State.endWord, hw]; rfl⟩
  | cons d rest ih =>
    have hblank : step meaning s sp = some s.endWord := by
      unfold step
      rw [hs, hsp]
    have hword := run_quoteWord hq hb honly d (hnul d List.mem_cons_self)
      (show s.endWord.mode = .unquoted from hs) rfl
    obtain ⟨s', hrun, hmode, hcommands, hwords⟩ :=
      @ih (fun a ha => hnul a (List.mem_cons_of_mem d ha)) { s.endWord with word := some d } d hs rfl
    refine ⟨s', ?_, hmode, hcommands, ?_⟩
    · rw [List.flatMap_cons, List.cons_append, run_cons, hblank, Option.bind_some, run_append,
        hword, Option.bind_some, hrun]
    · rw [hwords, State.endWord, hw, List.append_assoc]
      rfl

/-- Quoted words are the further words of the command that they are written into. -/
theorem finish_quoteWords {argv : List (List A)} (hne : argv ≠ [])
    (hnul : ∀ a ∈ argv, ∀ c ∈ a, meaning c ≠ .nul) {s : State A} (hs : s.mode = .unquoted)
    (hw : s.word = none) : (run meaning s (quoteWords q b sp argv)).bind finish =
      some (s.commands ++ [s.words ++ argv]) := by
  cases argv with
  | nil => exact absurd rfl hne
  | cons a rest =>
    have hword := run_quoteWord hq hb honly a (hnul a List.mem_cons_self) hs hw
    obtain ⟨s', hrun, hmode, hcommands, hwords⟩ :=
      @run_quoteWords _ _ _ _ _ _ hq hb honly hsp rest
        (fun a ha => hnul a (List.mem_cons_of_mem _ ha)) { s with word := some a } a hs rfl
    have hend : s'.endCommand.commands = s.commands ++ [s.words ++ a :: rest] := by
      have hsome : s'.endWord.words ≠ [] := by
        rw [hwords]
        exact List.append_ne_nil_of_right_ne_nil _ (List.cons_ne_nil a rest)
      rw [State.endCommand, if_neg hsome, hcommands, hwords]
    rw [quoteWords, run_append, hword, Option.bind_some, hrun, Option.bind_some, finish, hmode]
    exact congrArg some hend

end
end
end Spade.Shell
