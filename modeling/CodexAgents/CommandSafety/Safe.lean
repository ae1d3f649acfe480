import CodexAgents.CommandSafety.Dangerous

/-!
# Safe commands

`is_safe_to_call_with_exec` in `shell-command/src/command_safety/is_safe_command.rs` accepts the
commands that are run without asking.  Some programs are accepted with any arguments, others only
without the options that write files or run other programs.

For `base64` and `rg`, every word is compared with these options.  A word may hold several short
options, and then the others are not seen.  `isBase64Unsafe_iff` and `isRipgrepUnsafe_iff` say which
spellings of the options are seen, and `unsafeOptions_absent_iff` that an accepted command has none
of them exactly if it has none in one of the other spellings.
-/

namespace CommandSafety

open Text List

/-! ## `git` -/

variable (arg : Str)

/-- The next word is the value of the option. -/
def isGitGlobalOptionWithValue : Bool :=
  arg ∈ ["-C", "-c", "--config-env", "--exec-path", "--git-dir", "--namespace", "--super-prefix",
    "--work-tree"].map String.toList

/-- The word has the value in it. -/
def isGitGlobalOptionWithInlineValue : Bool :=
  ["--config-env=", "--exec-path=", "--git-dir=", "--namespace=", "--super-prefix=",
      "--work-tree="].any (startsWith arg ·.toList) ||
    (startsWith arg "-C" || startsWith arg "-c") && decide (2 < arg.length)

/-- The loop of `find_git_subcommand`, from an argument on. -/
def findGitSubcommandFrom (subcommands : List Str) : Nat → Bool → List Str → Option (Nat × Str)
  | _, _, [] => none
  | idx, true, _ :: args => findGitSubcommandFrom subcommands (idx + 1) false args
  | idx, false, arg :: args =>
    if isGitGlobalOptionWithInlineValue arg then
      findGitSubcommandFrom subcommands (idx + 1) false args
    else if isGitGlobalOptionWithValue arg then
      findGitSubcommandFrom subcommands (idx + 1) true args
    else if arg = "--" ∨ startsWith arg "-" = true then
      findGitSubcommandFrom subcommands (idx + 1) false args
    else if arg ∈ subcommands then some (idx, arg)
    else none

/-- The first of the subcommands behind global options. -/
def findGitSubcommand (command subcommands : List Str) : Option (Nat × Str) :=
  match command with
  | [] => none
  | cmd0 :: args =>
    if executableNameLookupKey cmd0 ≠ some "git" then none
    else findGitSubcommandFrom subcommands 1 false args

/-- With no arguments at all, `git branch` lists the branches. -/
def gitBranchIsReadOnly (branchArgs : List Str) : Bool :=
  branchArgs.all fun arg =>
    decide (arg ∈ ["--list", "-l", "--show-current", "-a", "--all", "-r", "--remotes", "-v", "-vv",
      "--verbose"].map String.toList) || startsWith arg "--format="

/-- How an option can be written. -/
inductive GitOptionPattern where
  | exact (option : String)
  | shortWithInlineValue (option : String)
  | start (start : String)

/-- The word is the option. -/
def GitOptionPattern.isMatch : GitOptionPattern → Bool
  | exact option => arg = option.toList
  | shortWithInlineValue option =>
    startsWith arg option.toList && decide (option.toList.length < arg.length)
  | start text => startsWith arg text.toList

/-- Global options that can run programs or leave the directory. -/
def unsafeGitGlobalOptions : List GitOptionPattern :=
  [.exact "-C", .shortWithInlineValue "-C", .exact "-c", .shortWithInlineValue "-c", .exact "-p",
    .exact "--config-env", .start "--config-env=", .exact "--exec-path", .start "--exec-path=",
    .exact "--git-dir", .start "--git-dir=", .exact "--namespace", .start "--namespace=",
    .exact "--paginate", .exact "--super-prefix", .start "--super-prefix=", .exact "--work-tree",
    .start "--work-tree="]

/-- Options that can write files or run programs. -/
def unsafeGitSubcommandOptions : List GitOptionPattern :=
  [.exact "--output", .start "--output=", .exact "--ext-diff", .exact "--textconv",
    .exact "--exec", .start "--exec="]

/-- The word is one of the options. -/
def gitMatchesOptionPattern (patterns : List GitOptionPattern) : Bool :=
  patterns.any (·.isMatch arg)

/-- Some word is an unsafe global option. -/
def gitHasUnsafeGlobalOption (globalArgs : List Str) : Bool :=
  globalArgs.any (gitMatchesOptionPattern · unsafeGitGlobalOptions)

/-- No word is an unsafe option. -/
def gitSubcommandArgsAreReadOnly (args : List Str) : Bool :=
  !args.any (gitMatchesOptionPattern · unsafeGitSubcommandOptions)

/-- A subcommand that reads, with options that are safe. -/
def isSafeGitCommand (command : List Str) : Bool :=
  match findGitSubcommand command
      (["status", "log", "diff", "show", "branch"].map String.toList) with
  | none => false
  | some (idx, subcommand) =>
    !gitHasUnsafeGlobalOption ((command.take idx).drop 1) &&
      gitSubcommandArgsAreReadOnly (command.drop (idx + 1)) &&
      (decide (subcommand ≠ "branch") || gitBranchIsReadOnly (command.drop (idx + 1)))

/-! ## The other programs -/

/-- Whether a text is a number, or two with a comma between them, and then a `p`. -/
def isValidSedNArg : Option Str → Bool
  | none => false
  | some s =>
    if s.getLast? = some 'p' then
      match s.dropLast.splitOn ',' with
      | [num] => decide (num ≠ []) && num.all Char.isDigit
      | [a, b] => decide (a ≠ [] ∧ b ≠ []) && a.all Char.isDigit && b.all Char.isDigit
      | _ => false
    else false

/-- The output goes to a file. -/
def isBase64Unsafe : Bool :=
  decide (arg ∈ ["-o".toList, "--output".toList]) || startsWith arg "--output=".toList ||
    startsWith arg "-o".toList && decide (arg ≠ "-o".toList)

/-- Options that run programs, or delete or write files. -/
def unsafeFindOptions : List Str :=
  ["-exec", "-execdir", "-ok", "-okdir", "-delete", "-fls", "-fprint", "-fprint0",
    "-fprintf"].map String.toList

/-- Options that run programs. -/
def isRipgrepUnsafe : Bool :=
  decide (arg ∈ ["--search-zip".toList, "-z".toList]) ||
    ["--pre".toList, "--hostname-bin".toList].any fun opt =>
      decide (arg = opt) || startsWith arg (opt ++ "=".toList)

/-- The programs that are accepted with any arguments. -/
def safePrograms : List Str :=
  ["cat", "cd", "cut", "echo", "expr", "false", "grep", "head", "id", "ls", "nl", "paste", "pwd",
    "rev", "seq", "stat", "tail", "tr", "true", "uname", "uniq", "wc", "which",
    "whoami"].map String.toList

/-- By the name of the program. -/
def isSafeToCallWithExec (linux : Bool) (command : List Str) : Bool :=
  match command.head?.bind executableNameLookupKey with
  | none => false
  | some cmd =>
    if linux = true ∧ cmd ∈ ["numfmt".toList, "tac".toList] then true
    else if cmd ∈ safePrograms then true
    else if cmd = "base64".toList then !(command.drop 1).any isBase64Unsafe
    else if cmd = "find".toList then !command.any (· ∈ unsafeFindOptions)
    else if cmd = "rg".toList then !command.any isRipgrepUnsafe
    else if cmd = "git".toList then isSafeGitCommand command
    else if cmd = "sed".toList then
      decide (command.length ≤ 4) && decide (command[1]? = some "-n".toList) &&
        isValidSedNArg command[2]?
    else false

/-! ## Reading options -/

/-- The short options in a word, in turn. -/
def shortOptions : Str → List Char
  | '-' :: '-' :: _ => []
  | '-' :: options => options
  | _ => []

/-- A short option and long ones. -/
structure Options where
  short : Char
  long : List Str

/-- **A word has one of the options in it**: among its short options, as the long option, or as the
long option with a value. -/
def Options.Present (options : Options) (arg : Str) : Prop :=
  options.short ∈ shortOptions arg ∨
    ∃ name ∈ options.long, arg = name ∨ name ++ "=".toList <+: arg

instance (options : Options) (arg : Str) : Decidable (options.Present arg) :=
  inferInstanceAs (Decidable (_ ∨ _))

/-- The options of `base64` that are refused. -/
def base64Options : Options := ⟨'o', ["--output"]⟩

/-- The options of `rg` that are refused. -/
def ripgrepOptions : Options :=
  ⟨'z', ["--search-zip", "--pre", "--hostname-bin"]⟩

/-- The option is behind another short one. -/
def Base64Missed : Prop :=
  'o' ∈ shortOptions arg ∧ (shortOptions arg).head? ≠ some 'o'

/-- The option is not the only short one, or the long option has a value. -/
def RipgrepMissed : Prop :=
  'z' ∈ shortOptions arg ∧ arg ≠ "-z" ∨ "--search-zip=" <+: arg

lemma not_mem_shortOptions {start arg : Str} (h : start <+: arg) (hstart : "--" <+: start)
    (c : Char) : c ∉ shortOptions arg := by
  obtain ⟨rest, rfl⟩ := hstart.trans h
  exact not_mem_nil

lemma prefix_iff_head?_shortOptions :
    "-o" <+: arg ↔ (shortOptions arg).head? = some 'o' := by
  constructor
  · rintro ⟨rest, rfl⟩
    rfl
  · rw [shortOptions.eq_def]
    split
    · simp
    · intro h
      obtain ⟨rest, rfl⟩ := head?_eq_some_iff.mp h
      exact ⟨rest, rfl⟩
    · simp

/-- The check sees the option where a word begins with it. -/
lemma isBase64Unsafe_iff :
    isBase64Unsafe arg = true ↔ base64Options.Present arg ∧ ¬ Base64Missed arg := by
  have hhead := prefix_iff_head?_shortOptions arg
  have hmem : (shortOptions arg).head? = some 'o' → 'o' ∈ shortOptions arg := mem_of_head?
  have hself : arg = "-o".toList → "-o".toList <+: arg := fun h => h ▸ prefix_rfl
  have hlong : arg = "--output".toList ∨ "--output".toList ++ "=".toList <+: arg →
      'o' ∉ shortOptions arg := by
    rintro (rfl | h)
    · decide
    · exact not_mem_shortOptions h (by decide) 'o'
  have heq : "--output=".toList = "--output".toList ++ "=".toList := by decide
  simp only [isBase64Unsafe, startsWith, isPrefixOf_iff_prefix, Options.Present, Base64Missed,
    base64Options, Bool.or_eq_true, Bool.and_eq_true, decide_eq_true_iff, mem_cons,
    not_mem_nil, or_false, exists_eq_left, heq]
  tauto

/-- The check sees the short option where it stands alone, and the long ones but for a value of the
one that takes none. -/
lemma isRipgrepUnsafe_iff :
    isRipgrepUnsafe arg = true ↔ ripgrepOptions.Present arg ∧ ¬ RipgrepMissed arg := by
  have hshort : arg = "-z".toList → 'z' ∈ shortOptions arg ∧ ¬ "--search-zip=".toList <+: arg := by
    rintro rfl
    decide
  have hzip : arg = "--search-zip".toList →
      'z' ∉ shortOptions arg ∧ ¬ "--search-zip=".toList <+: arg := by
    rintro rfl
    decide
  have hlong : ∀ name ∈ ["--pre".toList, "--hostname-bin".toList],
      arg = name ∨ name ++ "=".toList <+: arg →
        'z' ∉ shortOptions arg ∧ ¬ "--search-zip=".toList <+: arg := by
    intro name hname h
    have hdashes : ∀ name ∈ ["--pre".toList, "--hostname-bin".toList], "--".toList <+: name ∧
        ¬ name <+: "--search-zip=".toList ∧ ¬ "--search-zip=".toList <+: name := by decide
    replace hdashes := hdashes name hname
    have hprefix : name <+: arg := h.elim (fun h => h ▸ prefix_rfl)
      (prefix_append name _).trans
    refine ⟨not_mem_shortOptions hprefix hdashes.1 'z', fun h => ?_⟩
    obtain hname | hzip := prefix_or_prefix_of_prefix hprefix h
    · exact hdashes.2.1 hname
    · exact hdashes.2.2 hzip
  have heq : "--search-zip=".toList = "--search-zip".toList ++ "=".toList := by decide
  simp only [forall_mem_cons, heq] at hshort hzip hlong
  simp only [isRipgrepUnsafe, startsWith, isPrefixOf_iff_prefix, Options.Present,
    RipgrepMissed, ripgrepOptions, Bool.or_eq_true, decide_eq_true_iff, mem_cons,
    not_mem_nil, or_false, exists_eq_left, exists_eq_or_imp, any_cons, any_nil,
    heq]
  generalize "--search-zip".toList = zip at *
  generalize "--pre".toList = pre at *
  generalize "--hostname-bin".toList = hostnameBin at *
  tauto

/-! ## Accepted commands -/

/-- **An accepted command has none of the options** exactly if it has none in a spelling that the
checks miss. -/
theorem unsafeOptions_absent_iff (linux : Bool) (program : Str) (args : List Str) :
    (isSafeToCallWithExec linux (program :: args) = true →
      (executableNameLookupKey program = some "base64".toList →
        ∀ arg ∈ args, ¬ base64Options.Present arg) ∧
      (executableNameLookupKey program = some "rg".toList →
        ∀ arg ∈ args, ¬ ripgrepOptions.Present arg)) ↔
    (isSafeToCallWithExec linux (program :: args) = true →
      (executableNameLookupKey program = some "base64".toList →
        ∀ arg ∈ args, ¬ Base64Missed arg) ∧
      (executableNameLookupKey program = some "rg".toList →
        ∀ arg ∈ args, ¬ RipgrepMissed arg)) := by
  refine imp_congr_right fun haccepted => and_congr (imp_congr_right fun hkey => ?_)
    (imp_congr_right fun hkey => ?_)
  · have hchecked : ∀ arg ∈ args, ¬ isBase64Unsafe arg = true := by
      rw [isSafeToCallWithExec, head?_cons, Option.bind_some, hkey] at haccepted
      dsimp only at haccepted
      rw [if_neg fun h => absurd h.2 (by decide), if_neg (by decide), if_pos rfl] at haccepted
      simpa using haccepted
    refine forall₂_congr fun arg hmem => ?_
    have := hchecked arg hmem
    rw [isBase64Unsafe_iff] at this
    have hpresent : Base64Missed arg → base64Options.Present arg := fun h => .inl h.1
    tauto
  · have hchecked : ∀ arg ∈ args, ¬ isRipgrepUnsafe arg = true := by
      rw [isSafeToCallWithExec, head?_cons, Option.bind_some, hkey] at haccepted
      dsimp only at haccepted
      rw [if_neg fun h => absurd h.2 (by decide), if_neg (by decide), if_neg (by decide),
        if_neg (by decide), if_pos rfl, Bool.not_eq_true', any_eq_false] at haccepted
      exact fun arg hmem => haccepted arg (mem_cons_of_mem _ hmem)
    refine forall₂_congr fun arg hmem => ?_
    have := hchecked arg hmem
    rw [isRipgrepUnsafe_iff] at this
    have hpresent : RipgrepMissed arg → ripgrepOptions.Present arg :=
      fun h => h.imp And.left fun h => ⟨"--search-zip".toList, by decide, .inr h⟩
    tauto

/-- Behind another option, the one that writes a file, or runs programs, is accepted. -/
theorem not_unsafeOptions_absent_cluster :
    isSafeToCallWithExec true ["base64", "-do", "/tmp/out"] = true ∧
      base64Options.Present "-do" ∧
      isSafeToCallWithExec true ["rg", "-iz", "x"] = true ∧
      ripgrepOptions.Present "-iz" := by
  decide +kernel

end CommandSafety
