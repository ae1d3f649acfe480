import CodexAgents.Lib.Text

/-!
# Dangerous commands

`shell-command/src/command_safety/is_dangerous_command.rs` looks for a forced `rm` in a command: in
the command itself, behind `sudo` and `env`, in the action of `trap`, and in the scripts of shells.
Each of these is a level, and only so many of them are gone into
(`maxDangerousCommandWrapperDepth`).  Behind the last one nothing is found any more.

`Danger n command` says that a forced `rm` is found in a command if `n` levels are gone into, and
the matcher finds those with at most nine (`levels_isSome_iff`).  `sudo` and `env` hide nothing but
their level: a wrapped command is matched as the command is with one level less (`levels_wrap`).

The functions are those for Unix.  The parser of shell scripts is a parameter: it gives the commands
of a script with the words that are known.
-/

namespace CommandSafety

open Text Option List

/-- Why a command is dangerous. -/
inductive DangerousCommandMatch where
  | forcedRm
  | other
  deriving DecidableEq

/-! ## Paths and shells -/

variable (path : Str)

/-- `Path::components`: the root, a dot in front, and the parts that are not empty or a dot. -/
def components : List Str :=
  let parts := path.splitOn '/'
  (if path.head? = some '/' then [['/']] else if parts.head? = some ['.'] then [['.']] else []) ++
    parts.filter fun part => part ≠ [] ∧ part ≠ ['.']

/-- `Path::file_name`. -/
def fileName : Option Str :=
  (components path).getLast?.filter (· ∉ ["/".toList, ".".toList, "..".toList])

/-- A name without its extension.  What begins with its only dot has none. -/
def stem (name : Str) : Str :=
  let before := (name.rdropWhile (· ≠ '.')).dropLast
  if before = [] then name else before

/-- `Path::file_stem`. -/
def fileStem : Option Str := (fileName path).map stem

/-- The name of a program without its directory. -/
def executableNameLookupKey (raw : Str) : Option Str := fileName raw

/-- The shells that are known. -/
inductive ShellType where
  | zsh
  | bash
  | powerShell
  | sh
  | cmd
  deriving DecidableEq

/-- Their names. -/
def shellNames : List (Str × ShellType) :=
  [("zsh", .zsh), ("sh", .sh), ("cmd", .cmd), ("bash", .bash),
    ("pwsh", .powerShell), ("powershell", .powerShell)]

/-- Every call takes something off the path, so that its length is enough fuel. -/
def detectShellType : Nat → Str → Option ShellType
  | 0, _ => none
  | fuel + 1, path =>
    match shellNames.lookup path with
    | some shell => some shell
    | none =>
      match fileStem path with
      | some name => if components name = components path then none else detectShellType fuel name
      | none => none

/-- The script of a call of a shell. -/
def extractBashCommand : List Str → Option (Str × Str)
  | [shell, flag, script] =>
    if flag ∈ ["-lc".toList, "-c".toList] ∧
        detectShellType (shell.length + 1) shell ∈ [some .zsh, some .bash, some .sh] then
      some (shell, script)
    else none
  | _ => none

/-! ## The matcher -/

/-- How many wrappers are looked through. -/
def maxDangerousCommandWrapperDepth : Nat := 8

/-- A forced removal, by an option before `--`. -/
def rmArgsIncludeForceOption (args : List Str) : Bool :=
  (args.takeWhile (· ≠ "--".toList)).any fun arg =>
    arg = "--force".toList ||
      (stripPrefix ['-'] arg).any fun flags => flags.head? ≠ some '-' && decide ('f' ∈ flags)

/-- What `env` reads before the command: an option to start with an empty environment, or an
assignment. -/
def isEnvArgument (argument : Str) : Bool :=
  decide (argument = "-i" ∨ argument = "--ignore-environment") ||
    (decide ('=' ∈ argument) && argument.takeWhile (· ≠ '=') ≠ [] &&
      (argument.takeWhile (· ≠ '=')).head? ≠ some '-')

/-- What `env` runs. -/
def skipEnvArguments : List Str → List Str
  | [] => []
  | argument :: rest =>
    if argument = "--" then rest
    else if isEnvArgument argument then skipEnvArguments rest else argument :: rest

/-- The action of `trap`, its first operand, unless that is an option. -/
def trapAction (arguments : List Str) : Option Str :=
  let operands := if arguments.head? = some "--" then arguments.tail else arguments
  operands.head?.filter (·.head? ≠ some '-')

section

-- the matcher for what is one level further in
variable (inner : List Str → Option DangerousCommandMatch) (command : List Str)

/-- The command behind `env` and its arguments. -/
def dangerousCommandMatchForEnv : Option DangerousCommandMatch :=
  inner (skipEnvArguments command.tail)

/-- The action of a `trap` is a script. -/
def dangerousCommandMatchForTrap : Option DangerousCommandMatch :=
  (trapAction command.tail).bind fun action => inner ["sh", "-c", action]

/-- By the name of the program. -/
def dangerousCommandMatchForExec : Option DangerousCommandMatch :=
  match command.head?.bind executableNameLookupKey with
  | some key =>
    if key = "rm" ∧ rmArgsIncludeForceOption command.tail = true then some .forcedRm
    else if key = "sudo" then inner command.tail
    else if key = "env" then dangerousCommandMatchForEnv inner command
    else if key = "trap" then dangerousCommandMatchForTrap inner command
    else none
  | none => none

end

variable (literalCommands : Str → Option (List (List Str)))

section

-- the commands of a shell script, `none` if it has an error
variable (command : List Str)

/-- The commands of a script, if it is made of plain ones. -/
def parseShellLcLiteralCommands : Option (List (List Str)) :=
  (extractBashCommand command).bind fun shell => literalCommands shell.2

/-- The matcher with a number of levels left, this one included. -/
def dangerousCommandMatchWithLevels : Nat → List Str → Option DangerousCommandMatch
  | 0, _ => none
  | levels + 1, command =>
    (dangerousCommandMatchForExec (dangerousCommandMatchWithLevels levels) command).or
      ((parseShellLcLiteralCommands literalCommands command).bind fun commands =>
        commands.findSome? (dangerousCommandMatchWithLevels levels))

/-- At a depth of wrappers. -/
def dangerousCommandMatchWithDepth (wrapperDepth : Nat) : Option DangerousCommandMatch :=
  dangerousCommandMatchWithLevels literalCommands
    (maxDangerousCommandWrapperDepth + 1 - wrapperDepth) command

/-- Is the command dangerous, behind any wrapper? -/
def dangerousCommandMatch : Option DangerousCommandMatch :=
  dangerousCommandMatchWithDepth literalCommands command 0

end

/-- **A forced `rm` in a command**, and how many levels have to be gone into for it: one for the
`rm`, and one more for each `sudo`, `env`, `trap` and script around it. -/
inductive Danger : Nat → List Str → Prop
  | forcedRm {program args} : executableNameLookupKey program = some "rm" →
      rmArgsIncludeForceOption args → Danger 1 (program :: args)
  | behindSudo {n program command} : executableNameLookupKey program = some "sudo" →
      Danger n command → Danger (n + 1) (program :: command)
  | behindEnv {n program args} : executableNameLookupKey program = some "env" →
      Danger n (skipEnvArguments args) → Danger (n + 1) (program :: args)
  | inTrap {n program args action} : executableNameLookupKey program = some "trap" →
      trapAction args = some action → Danger n ["sh", "-c", action] →
      Danger (n + 1) (program :: args)
  | inScript {n command commands inner} :
      parseShellLcLiteralCommands literalCommands command = some commands → inner ∈ commands →
      Danger n inner → Danger (n + 1) command

/-! ## Wrappers -/

/-- **A wrapper the matcher looks through.**  The program may be given with its path. -/
inductive Wrapper where
  | sudoCommand (program : Str) (named : executableNameLookupKey program = some "sudo")
  | envCommand (program : Str) (named : executableNameLookupKey program = some "env")
      (arguments : List Str) (read : ∀ argument ∈ arguments, isEnvArgument argument = true)
      (dashes : Bool)

namespace Wrapper

/-- The command behind a wrapper. -/
def wrap (command : List Str) : Wrapper → List Str
  | sudoCommand program _ => program :: command
  | envCommand program _ arguments _ dashes =>
    program :: (arguments ++ ((if dashes then ["--".toList] else []) ++ command))

/-- The wrapper runs the command, and does not read its first word as an argument of its own. -/
def Runs (command : List Str) : Wrapper → Prop
  | sudoCommand _ _ => True
  | envCommand _ _ _ _ dashes => dashes = true ∨
      ∀ word ∈ command.head?, word ≠ "--" ∧ isEnvArgument word = false

/-- The wrappers around a command, the outermost first. -/
def wrapAll (wrappers : List Wrapper) (command : List Str) : List Str :=
  wrappers.foldr (fun wrapper inside => wrapper.wrap inside) command

/-- Each wrapper runs what is inside it. -/
def RunAll : List Wrapper → List Str → Prop
  | [], _ => True
  | wrapper :: wrappers, command =>
    wrapper.Runs (wrapAll wrappers command) ∧ RunAll wrappers command

end Wrapper

open Wrapper

lemma skipEnvArguments_append {arguments}
    (hread : ∀ argument ∈ arguments, isEnvArgument argument) (rest : List Str) :
    skipEnvArguments (arguments ++ rest) = skipEnvArguments rest := by
  induction arguments with
  | nil => rfl
  | cons argument arguments ih =>
    have hargument := hread argument mem_cons_self
    have hne : argument ≠ "--" := by
      rintro rfl
      exact absurd hargument (by decide)
    rw [cons_append, skipEnvArguments, if_neg hne, if_pos hargument]
    exact ih fun argument hmem => hread argument (mem_cons_of_mem _ hmem)

/-- A program with a name that is no shell's, and without an extension, is no shell. -/
lemma detectShellType_eq_none {name} (hname : fileName name = some name)
    (hstem : stem name = name) (hnone : shellNames.lookup name = none)
    (hshells : ∀ shell ∈ shellNames, fileName shell.1 ≠ some name) {path}
    (hpath : fileName path = some name) (fuel : Nat) : detectShellType fuel path = none := by
  have hself : ∀ fuel, detectShellType fuel name = none := by
    intro fuel
    obtain _ | fuel := fuel
    · rfl
    · simp [detectShellType, hnone, fileStem, hname, hstem]
  obtain _ | fuel := fuel
  · rfl
  rw [detectShellType]
  split
  · rename_i shell hlookup
    obtain ⟨before, after, heq, -⟩ := lookup_eq_some_iff.mp hlookup
    exact absurd hpath (hshells (path, shell) (by simp [heq]))
  · rw [fileStem, hpath, map_some, hstem]
    simp [hself]

variable {program : Str} (inner : List Str → Option DangerousCommandMatch)

lemma dangerousCommandMatchForExec_sudo (named : executableNameLookupKey program = some "sudo")
    (command : List Str) :
    dangerousCommandMatchForExec inner (program :: command) = inner command := by
  simp [dangerousCommandMatchForExec, named]

lemma dangerousCommandMatchForExec_env (named : executableNameLookupKey program = some "env")
    (command : List Str) :
    dangerousCommandMatchForExec inner (program :: command) = inner (skipEnvArguments command) := by
  simp [dangerousCommandMatchForExec, named, dangerousCommandMatchForEnv]

lemma extractBashCommand_cons (command : List Str)
    (h : ∀ fuel, detectShellType fuel program = none) :
    extractBashCommand (program :: command) = none := by
  unfold extractBashCommand
  split
  · rename_i heq
    obtain ⟨rfl, -⟩ := cons.inj heq
    simp [h]
  · rfl

section

variable {command : List Str}

/-- **A wrapper costs one level**, and nothing else. -/
theorem levels_wrap (wrapper : Wrapper) (hruns : wrapper.Runs command) (levels : Nat) :
    dangerousCommandMatchWithLevels literalCommands (levels + 1) (wrapper.wrap command) =
      dangerousCommandMatchWithLevels literalCommands levels command := by
  obtain ⟨program, named⟩ | ⟨program, named, arguments, read, dashes⟩ := wrapper
  · have hshell := extractBashCommand_cons command fun fuel =>
      detectShellType_eq_none (by decide) (by decide) (by decide) (by decide) named fuel
    rw [wrap, dangerousCommandMatchWithLevels, dangerousCommandMatchForExec_sudo _ named,
      parseShellLcLiteralCommands, hshell, bind_none, bind_none, or_none]
  · have hshell := extractBashCommand_cons
      (arguments ++ ((if dashes then ["--".toList] else []) ++ command)) fun fuel =>
        detectShellType_eq_none (by decide) (by decide) (by decide) (by decide) named fuel
    have hskip : skipEnvArguments ((if dashes then ["--".toList] else []) ++ command) =
        command := by
      obtain rfl | hword := hruns
      · simp [skipEnvArguments]
      · obtain _ | _ := dashes
        · obtain _ | ⟨word, command⟩ := command
          · rfl
          · obtain ⟨hdashes, hargument⟩ := hword word rfl
            rw [if_neg Bool.false_ne_true, nil_append, skipEnvArguments, if_neg hdashes,
              if_neg (Bool.eq_false_iff.mp hargument)]
        · simp [skipEnvArguments]
    rw [wrap, dangerousCommandMatchWithLevels, dangerousCommandMatchForExec_env _ named,
      skipEnvArguments_append read, hskip, parseShellLcLiteralCommands, hshell, bind_none,
      bind_none, or_none]

/-- A nesting of wrappers costs as many levels. -/
lemma levels_wrapAll (wrappers : List Wrapper) (hrun : RunAll wrappers command) (levels : Nat) :
    dangerousCommandMatchWithLevels literalCommands levels (wrapAll wrappers command) =
      dangerousCommandMatchWithLevels literalCommands (levels - wrappers.length) command := by
  induction wrappers generalizing levels with
  | nil => rfl
  | cons wrapper wrappers ih =>
    obtain _ | levels := levels
    · simp [dangerousCommandMatchWithLevels]
    · rw [length_cons, Nat.add_sub_add_right]
      exact (levels_wrap literalCommands wrapper hrun.1 levels).trans (ih hrun.2 levels)

lemma Danger.pos {n} (h : Danger literalCommands n command) : 0 < n := by
  cases h <;> omega

/-- **The matcher finds what is within its levels**, and nothing else. -/
theorem levels_isSome_iff (levels : Nat) (command : List Str) :
    (dangerousCommandMatchWithLevels literalCommands levels command).isSome ↔
      ∃ n ≤ levels, Danger literalCommands n command := by
  induction levels generalizing command with
  | zero =>
    simp only [dangerousCommandMatchWithLevels, isSome_none, Bool.false_eq_true, false_iff]
    rintro ⟨n, hn, h⟩
    exact absurd h.pos (not_lt.mpr hn)
  | succ levels ih =>
    rw [dangerousCommandMatchWithLevels, isSome_or, Bool.or_eq_true]
    constructor
    · rintro (hexec | hscript)
      · obtain _ | ⟨program, args⟩ := command
        · cases hexec
        rw [dangerousCommandMatchForExec, head?_cons, bind_some] at hexec
        cases hkey : executableNameLookupKey program with
        | none => simp [hkey] at hexec
        | some key =>
          simp only [hkey] at hexec
          by_cases hrm : key = "rm" ∧ rmArgsIncludeForceOption (program :: args).tail
          · obtain ⟨rfl, hforce⟩ := hrm
            exact ⟨1, by omega, .forcedRm hkey hforce⟩
          rw [if_neg hrm] at hexec
          obtain rfl | hsudo := eq_or_ne key "sudo"
          · obtain ⟨n, hn, h⟩ := (ih _).mp hexec
            exact ⟨n + 1, by omega, .behindSudo hkey h⟩
          rw [if_neg hsudo] at hexec
          obtain rfl | henv := eq_or_ne key "env"
          · obtain ⟨n, hn, h⟩ := (ih _).mp hexec
            exact ⟨n + 1, by omega, .behindEnv hkey h⟩
          rw [if_neg henv] at hexec
          obtain ⟨m, hm⟩ := isSome_iff_exists.mp hexec
          obtain ⟨rfl, hm⟩ := ite_none_right_eq_some.mp hm
          obtain ⟨action, haction, hm⟩ := bind_eq_some_iff.mp hm
          obtain ⟨n, hn, h⟩ := (ih _).mp (isSome_of_eq_some hm)
          exact ⟨n + 1, by omega, .inTrap hkey haction h⟩
      · obtain ⟨m, hm⟩ := isSome_iff_exists.mp hscript
        obtain ⟨commands, hcommands, hm⟩ := bind_eq_some_iff.mp hm
        obtain ⟨inner, hmem, hm⟩ := exists_of_findSome?_eq_some hm
        obtain ⟨n, hn, h⟩ := (ih _).mp (isSome_of_eq_some hm)
        exact ⟨n + 1, by omega, .inScript hcommands hmem h⟩
    · rintro ⟨n, hn, h⟩
      have hinner : ∀ {n command}, Danger literalCommands n command → n ≤ levels →
          (dangerousCommandMatchWithLevels literalCommands levels command).isSome :=
        fun h hn => (ih _).mpr ⟨_, hn, h⟩
      cases h with
      | forcedRm hkey hforce => exact .inl (by simp [dangerousCommandMatchForExec, hkey, hforce])
      | behindSudo hkey h =>
        rw [dangerousCommandMatchForExec_sudo _ hkey]
        exact .inl (hinner h (by omega))
      | behindEnv hkey h =>
        rw [dangerousCommandMatchForExec_env _ hkey]
        exact .inl (hinner h (by omega))
      | inTrap hkey haction h =>
        have h := hinner h (by omega)
        exact .inl (by simpa [dangerousCommandMatchForExec, hkey, dangerousCommandMatchForTrap,
          haction] using h)
      | inScript hparse hmem h =>
        rw [hparse, bind_some, findSome?_isSome_iff]
        exact .inr ⟨_, hmem, hinner h (by omega)⟩

/-- **A command is found behind its wrappers** iff these and the levels it needs itself are at most
nine. -/
theorem dangerousCommandMatch_wrapped (wrappers : List Wrapper)
    (hrun : RunAll wrappers command) :
    (dangerousCommandMatch literalCommands (wrapAll wrappers command)).isSome ↔
      ∃ n, Danger literalCommands n command ∧
        wrappers.length + n ≤ maxDangerousCommandWrapperDepth + 1 := by
  rw [dangerousCommandMatch, dangerousCommandMatchWithDepth, Nat.sub_zero,
    levels_wrapAll literalCommands wrappers hrun, levels_isSome_iff]
  refine exists_congr fun n => ?_
  rw [and_comm]
  refine and_congr_right fun h => ?_
  have := h.pos
  omega

/-- Behind seven `sudo` and an `env` that sets a variable, a forced `rm` is found. -/
theorem dangerousCommandMatch_eight :
    (dangerousCommandMatch (fun _ => none)
      (List.replicate 7 "sudo".toList ++
        ["env".toList, "a=b".toList, "rm".toList, "-rf".toList, "/".toList])).isSome := by
  have hrm : Danger (fun _ => none) 1 ["rm", "-rf", "/"] := .forcedRm (by decide) (by decide)
  refine (dangerousCommandMatch_wrapped (fun _ => none)
    (List.replicate 7 (.sudoCommand "sudo" (by decide)) ++
      [.envCommand "env" (by decide) ["a=b"] (by decide) false]) ?_).mpr
    ⟨1, hrm, by simp [maxDangerousCommandWrapperDepth]⟩
  simp only [List.replicate, cons_append, nil_append, RunAll, Runs, wrapAll, true_and, and_true]
  decide

end

/-- Behind nine `sudo`, a forced `rm` is not found.  And `env` reads a first word with `=` as an
assignment, where that is the path of the program. -/
theorem not_dangerousCommandMatch_nine :
    (dangerousCommandMatch (fun _ => none) ["rm".toList, "-rf".toList, "/".toList] =
        some .forcedRm ∧
      dangerousCommandMatch (fun _ => none)
        (List.replicate 9 "sudo".toList ++ ["rm".toList, "-rf".toList, "/".toList]) = none) ∧
    dangerousCommandMatch (fun _ => none) ["a=b/rm".toList, "-rf".toList, "/".toList] =
        some .forcedRm ∧
      dangerousCommandMatch (fun _ => none)
        ["env".toList, "a=b/rm".toList, "-rf".toList, "/".toList] = none := by
  decide +kernel

end CommandSafety
