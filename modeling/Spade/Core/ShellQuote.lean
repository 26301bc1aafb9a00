import Spade.Lib.Shell

set_option autoImplicit false

/-!
# The command line of a block

`shellQuote` writes the path and the arguments of a block into the text that `/bin/sh -c` gets
within the sandbox. Texts are lists of bytes.
-/
namespace Spade
open Shell (Meaning)

abbrev Bytes : Type := List UInt8

/-- The bytes of a text of ASCII characters. -/
def ascii (s : String) : Bytes := s.toList.map fun c => c.toNat.toUInt8

/-- `strings.ReplaceAll` of a single byte. -/
def replaceAll (s : Bytes) (old : UInt8) (new : Bytes) : Bytes :=
  s.flatMap fun c => if c = old then new else [c]

def shellQuote (argv : List Bytes) : Bytes :=
  argv.zipIdx.foldl (fun b a =>
    (if a.2 > 0 then b ++ ascii " " else b) ++ ascii "'" ++ replaceAll a.1 39 (ascii "'\\''") ++
      ascii "'") []

def shellCmd (execPath : Bytes) (args : List Bytes) : Bytes :=
  ascii "umask 0000; exec " ++ shellQuote (execPath :: args)

/-- What a byte is to the shell. -/
def meaning (c : UInt8) : Meaning :=
  if c = 0 then .nul
  else if c ∈ ascii " \t" then .blank
  else if c ∈ ascii "\n" then .newline
  else if c ∈ ascii ";" then .semicolon
  else if c ∈ ascii "\\" then .backslash
  else if c ∈ ascii "'" then .quote
  else if c ∈ ascii "\"" then .doubleQuote
  else if c ∈ ascii "#" then .comment
  else if c ∈ ascii "$`" then .expansion
  else if c ∈ ascii "|&<>()*?[]{}~=!^%" then .special
  else .plain

theorem eq_of_meaning_quote (c : UInt8) (h : meaning c = .quote) : c = 39 := by
  unfold meaning at h
  split_ifs at h with _ _ _ _ _ hc
  exact List.mem_singleton.mp hc

theorem eq_of_meaning_nul {c : UInt8} (h : meaning c = .nul) : c = 0 := by
  unfold meaning at h
  split_ifs at h with hc
  exact hc

/-- The later arguments, each after a blank. -/
theorem shellQuote_rest (rest : List Bytes) (i : ℕ) (hi : 0 < i) (b : Bytes) :
    (rest.zipIdx i).foldl (fun b a =>
      (if a.2 > 0 then b ++ ascii " " else b) ++ ascii "'" ++ replaceAll a.1 39 (ascii "'\\''") ++
        ascii "'") b = b ++ rest.flatMap fun a => 32 :: Shell.quoteWord 39 92 a := by
  induction rest generalizing i b with
  | nil => exact (List.append_nil b).symm
  | cons a rest ih =>
    have hword : (32 :: Shell.quoteWord 39 92 a : Bytes) =
        ascii " " ++ ascii "'" ++ replaceAll a 39 (ascii "'\\''") ++ ascii "'" := rfl
    rw [List.zipIdx_cons, List.foldl_cons, ih (i + 1) (Nat.succ_pos i), if_pos hi,
      List.flatMap_cons, hword]
    simp only [List.append_assoc]

theorem shellQuote_eq (argv : List Bytes) :
    shellQuote argv = Shell.quoteWords 39 92 32 argv := by
  cases argv with
  | nil => rfl
  | cons a rest =>
    unfold shellQuote
    rw [List.zipIdx_cons, List.foldl_cons, if_neg (Nat.lt_irrefl 0),
      shellQuote_rest rest _ Nat.one_pos]
    rfl

/-- What the shell reads after a text that leaves it between words. -/
theorem finish_shellQuote {argv : List Bytes} (hne : argv ≠ []) (hnul : ∀ a ∈ argv, 0 ∉ a)
    {s : Shell.State UInt8} (hs : s.mode = .unquoted) (hw : s.word = none) :
    (Shell.run meaning s (shellQuote argv)).bind Shell.finish =
      some (s.commands ++ [s.words ++ argv]) := by
  have hread : ∀ a ∈ argv, ∀ c ∈ a, meaning c ≠ .nul := fun a ha c hc hm =>
    hnul a ha (eq_of_meaning_nul hm ▸ hc)
  rw [shellQuote_eq]
  exact Shell.finish_quoteWords (by decide) (by decide) eq_of_meaning_quote (by decide) hne hread
    hs hw

/-- The shell reads the arguments back, and runs the command that they are. -/
theorem shellQuote_faithful (argv : List Bytes) (hne : argv ≠ []) (hnul : ∀ a ∈ argv, 0 ∉ a) :
    Shell.commands meaning (shellQuote argv) = some [argv] ∧
      ∀ execPath args, argv = execPath :: args → Shell.commands meaning (shellCmd execPath args) =
        some [[ascii "umask", ascii "0000"], ascii "exec" :: argv] := by
  refine ⟨finish_shellQuote hne hnul rfl rfl, fun execPath args heq => ?_⟩
  have hprefix : Shell.run meaning {} (ascii "umask 0000; exec ") =
      some { commands := [[ascii "umask", ascii "0000"]], words := [ascii "exec"] } := by decide
  rw [shellCmd, Shell.commands, Shell.run_append, hprefix, Option.bind_some, ← heq,
    finish_shellQuote hne hnul rfl rfl]
  rfl

theorem shellQuote_faithful_hostile :
    Shell.commands meaning (shellQuote [ascii "a'; rm $HOME\\\n", [], ascii "-c"]) =
      some [[ascii "a'; rm $HOME\\\n", [], ascii "-c"]] :=
  (shellQuote_faithful _ (by decide) (by decide)).1

end Spade
