import Jericho.Cluster.Cluster
import Jericho.Library.Pattern
import Jericho.Library.ShellWords
import Jericho.Server.Request
import Jericho.Util.Join

/-! `apiSpawn`: the checks of its arguments, and the command that starts another server. -/
namespace Jericho.Api
open StdText Util Server Clustering ShellWords

/-- A regular expression. If it is anchored, each of its alternatives stands between `^` and `$`. -/
structure Regex where
  anchored : Bool := false
  pattern : Pattern Byte

/-- Whether a text has a match. -/
def apiValidate (substr : Bytes) (rgx : Regex) : Bool :=
  if rgx.anchored then (rgx.pattern.rests substr).contains [] else !(rgx.pattern.scan substr).isEmpty

def digit : Pattern Byte := .sat isdigit

/-- `^[0-9][0-9]{0,4}[0-9]$` -/
def portRegex : Regex := ⟨true, .seq digit (.seq (.upTo digit 4) digit)⟩

/-- `^[0-9][0-9]{0,3}[0-9]$|^[0-9]$` -/
def threadsRegex : Regex := ⟨true, .alt (.seq digit (.seq (.upTo digit 3) digit)) digit⟩

/-- `\.\.|\s` -/
def directoryRegex : Regex := ⟨false, .alt (.text (lit "..")) (.sat isspace)⟩

def tokenList : List Bytes := [lit "kalmoru", lit "kobutcha"]

def JsonResponse.error (code : Int) (message : Bytes) : Bytes :=
  lit "\x7b\"status\": \"" ++ toText code ++ lit "\", \"error\": \"" ++ message ++ lit "\"\x7d"

def JsonResponse.success (code : Int) (message : Bytes) : Bytes :=
  lit "\x7b\"status\": \"" ++ toText code ++ lit "\", \"success\": \"" ++ message ++ lit "\"\x7d"

/-- The directory of the new server. -/
def spawnDirectory (directory : Bytes) : Exec Bytes :=
  if (Occurrence.find (lit "%2f") directory).isSome then
    join (Occurrence.tokens (lit "%2F") directory) (lit "/") (-1) (-1)
  else .ok []

def spawnCommand (port threads directory : Bytes) : Bytes :=
  if directory ≠ [] then
    lit "./bin/extend -p " ++ port ++ lit " -t " ++ threads ++ lit " -d \"" ++ directory ++ lit "\""
  else lit "./bin/extend -p " ++ port ++ lit " -t " ++ threads

/-- What a call leaves: the cluster, what `system` was given if it came to that, and the answer. -/
structure Spawn where
  cluster : Cluster
  command : Option Bytes := none
  response : Bytes

/-- `router` and `client` tell whether the call has them. -/
def apiSpawn (req : Request) (router client : Bool) (cluster : Cluster) (d : Directory) (now : Int) : Exec Spawn :=
  let error (code : Int) (message : Bytes) : Exec Spawn :=
    .ok { cluster := cluster, response := JsonResponse.error code message }
  if router = false then error 404 (lit "Client does not exist!")
  else if client = false then error 404 (lit "System does not exist!")
  else if tokenList.contains (req.arg (lit "token")) = false then error 404 (lit "Invalid token provided")
  else if ¬ ∀ key ∈ [lit "port", lit "threads", lit "directory"], key ∈ req.args then
    error 404 (lit "Invalid arguments provided")
  else if apiValidate (req.arg (lit "port")) portRegex = false then
    error 404 (lit "Port is not a number. Should check if in use.")
  else if apiValidate (req.arg (lit "threads")) threadsRegex = false then error 404 (lit "Thread is not a number")
  else do
    let count ← stoi (req.arg (lit "threads"))
    if 10 < count then error 404 (lit "Threads must be <= 10")
    else if apiValidate (req.arg (lit "directory")) directoryRegex = true then
      error 404 (lit "Directory contains .. or space")
    else if 100 < (req.arg (lit "directory")).length then error 500 (lit "Directory length greater than 100")
    else
      let directory ← spawnDirectory (req.arg (lit "directory"))
      let port := req.arg (lit "port")
      let threads := req.arg (lit "threads")
      let (node, index) := ClusterNode.create cluster.index (lit "127.0.0.1") port directory d now
      return {
        cluster := Cluster.addNode { cluster with index := index } node
        command := some (cstr (spawnCommand port threads directory))
        response := JsonResponse.success 200 (lit "Spawned a new server at host:" ++ port) }

/-- A directory with its encoded slashes decoded. -/
def decodeSlashes : Bytes → Bytes
  | 37 :: 50 :: 102 :: s => 47 :: decodeSlashes s
  | 37 :: 50 :: 70 :: s => 47 :: decodeSlashes s
  | c :: s => c :: decodeSlashes s
  | [] => []

/-- The words that the command is meant to have. -/
def spawnWords (port threads directory : Bytes) : List Bytes :=
  [lit "./bin/extend", lit "-p", port, lit "-t", threads] ++
    if directory = [] then [] else [lit "-d", decodeSlashes directory]

/-- A command is given to `system` if the checks are passed. -/
theorem apiSpawn_command {req : Request} {router client : Bool} {cluster : Cluster} {d : Directory} {now : Int}
    {spawn : Spawn} {command : Bytes} (h : apiSpawn req router client cluster d now = .ok spawn)
    (hcommand : spawn.command = some command) :
    apiValidate (req.arg (lit "port")) portRegex = true ∧ apiValidate (req.arg (lit "threads")) threadsRegex = true ∧
      (req.arg (lit "directory")).length ≤ 100 ∧ ∃ directory, spawnDirectory (req.arg (lit "directory")) = .ok directory ∧
        command = cstr (spawnCommand (req.arg (lit "port")) (req.arg (lit "threads")) directory) := by
  -- A check that is not passed ends the call without a command.
  have hpass {c : Prop} [Decidable c] {response : Bytes} {rest : Exec Spawn}
      (h : (if c then .ok { cluster := cluster, response := response } else rest) = .ok spawn) :
      ¬ c ∧ rest = .ok spawn := by
    split_ifs at h with hc
    · rw [← Except.ok.inj h] at hcommand
      cases hcommand
    · exact ⟨hc, h⟩
  obtain ⟨-, h⟩ := hpass h
  obtain ⟨-, h⟩ := hpass h
  obtain ⟨-, h⟩ := hpass h
  obtain ⟨-, h⟩ := hpass h
  obtain ⟨hport, h⟩ := hpass h
  obtain ⟨hthreads, h⟩ := hpass h
  obtain ⟨count, -, h⟩ := bind_eq_ok.mp h
  obtain ⟨-, h⟩ := hpass h
  obtain ⟨-, h⟩ := hpass h
  obtain ⟨hlength, h⟩ := hpass h
  obtain ⟨directory, hdirectory, h⟩ := bind_eq_ok.mp h
  rw [← Except.ok.inj h] at hcommand
  exact ⟨eq_true_of_ne_false hport, eq_true_of_ne_false hthreads, Nat.not_lt.mp hlength, directory, hdirectory,
    (Option.some.inj hcommand).symm⟩

/-- A text that an anchored expression of digits matches. -/
theorem digits_of_validate {substr : Bytes} {rgx : Regex} (h : apiValidate substr rgx = true)
    (hanchored : rgx.anchored = true) (hdigits : rgx.pattern.Within (isdigit · = true))
    (hempty : rgx.pattern.rests [] = []) : substr ≠ [] ∧ ∀ c ∈ substr, isdigit c = true := by
  rw [apiValidate, if_pos hanchored] at h
  have hmem : [] ∈ rgx.pattern.rests substr := List.contains_iff_mem.mp h
  constructor
  · rintro rfl
    rw [hempty] at hmem
    cases hmem
  · obtain ⟨u, hu, hall⟩ := Pattern.rests_split hdigits hmem
    rw [← hu, List.append_nil]
    exact hall

theorem within_digit : digit.Within (isdigit · = true) := fun _ h => h

theorem digits_of_port {port : Bytes} (h : apiValidate port portRegex = true) :
    port ≠ [] ∧ ∀ c ∈ port, isdigit c = true :=
  digits_of_validate h rfl ⟨within_digit, Pattern.within_upTo within_digit 4, within_digit⟩ rfl

theorem digits_of_threads {threads : Bytes} (h : apiValidate threads threadsRegex = true) :
    threads ≠ [] ∧ ∀ c ∈ threads, isdigit c = true :=
  digits_of_validate h rfl ⟨⟨within_digit, Pattern.within_upTo within_digit 3, within_digit⟩, within_digit⟩ rfl

theorem literal_of_isdigit {c : Byte} (h : isdigit c = true) : literal c = true := by
  obtain ⟨n, hn, rfl⟩ : ∃ n < 10, c = UInt8.ofNat (48 + n) := by
    simp only [isdigit, Bool.and_eq_true, decide_eq_true_eq, UInt8.le_iff_toNat_le, UInt8.toNat_ofNat] at h
    refine ⟨c.toNat - 48, by omega, ?_⟩
    rw [show 48 + (c.toNat - 48) = c.toNat by omega, UInt8.ofNat_toNat]
  interval_cases n <;> decide

theorem count_digits {text : Bytes} (h : ∀ c ∈ text, isdigit c = true) {c : Byte} (hc : isdigit c = false) :
    text.count c = 0 := by
  refine List.count_eq_zero_of_not_mem fun hmem => ?_
  rw [h c hmem] at hc
  cases hc

/-- Decoding adds a slash for each that was encoded. -/
theorem count_decodeSlashes (s : Bytes) :
    s.count 47 ≤ (decodeSlashes s).count 47 ∧ (lit "%2f" <:+: s → s.count 47 < (decodeSlashes s).count 47) := by
  induction s using decodeSlashes.induct with
  | case1 s ih =>
    have hsame : (37 :: 50 :: 102 :: s).count 47 = s.count (47 : Byte) := by simp
    rw [decodeSlashes, List.count_cons_self, hsame]
    exact ⟨Nat.le_succ_of_le ih.1, fun _ => Nat.lt_succ_of_le ih.1⟩
  | case2 s ih =>
    have hsame : (37 :: 50 :: 70 :: s).count 47 = s.count (47 : Byte) := by simp
    rw [decodeSlashes, List.count_cons_self, hsame]
    exact ⟨Nat.le_succ_of_le ih.1, fun _ => Nat.lt_succ_of_le ih.1⟩
  | case3 c s hlower hupper ih =>
    rw [decodeSlashes.eq_3 c s hlower hupper, List.count_cons, List.count_cons]
    refine ⟨Nat.add_le_add_right ih.1 _, fun hin => Nat.add_lt_add_right (ih.2 ?_) _⟩
    refine (List.infix_cons_iff.mp hin).resolve_left ?_
    rintro ⟨t, ht⟩
    obtain ⟨hc, ht⟩ := List.cons_eq_cons.mp ht
    exact hlower t hc.symm ht.symm
  | case4 => exact ⟨le_rfl, fun hin => absurd hin (by decide)⟩

/-- What `join` makes of the pieces of a directory adds nothing to it. -/
theorem spawnDirectory_sublist {directory joined : Bytes} (hlength : directory.length ≤ 100)
    (h : spawnDirectory directory = .ok joined) : joined.Sublist directory := by
  unfold spawnDirectory at h
  split_ifs at h
  · have hflatten : (Occurrence.tokens (lit "%2F") directory).flatten.Sublist directory :=
      Occurrence.flatten_tokens_sublist (by decide) directory
    have hcount : (Occurrence.tokens (lit "%2F") directory).length ≤ directory.length :=
      Occurrence.length_tokens_le (by decide) directory
    rw [join_whole (by omega)] at h
    exact Except.ok.inj h ▸ hflatten
  · exact Except.ok.inj h ▸ List.nil_sublist directory

/-- Without a directory the command has the words that it is meant to have. -/
theorem spawnCommand_nil {port threads : Bytes} (hport : port ≠ [] ∧ ∀ c ∈ port, isdigit c = true)
    (hthreads : threads ≠ [] ∧ ∀ c ∈ threads, isdigit c = true) :
    simpleCommand (cstr (spawnCommand port threads [])) = some (spawnWords port threads []) := by
  have hcommand : spawnCommand port threads [] = lit "./bin/extend -p " ++ port ++ lit " -t " ++ threads :=
    if_neg (not_not.mpr rfl)
  have hzero {text : Bytes} (h : ∀ c ∈ text, isdigit c = true) : (0 : Byte) ∉ text := fun hmem =>
    absurd (h 0 hmem) (by decide)
  have hcstr : cstr (spawnCommand port threads []) = spawnCommand port threads [] := by
    rw [hcommand, cstr_eq_self_iff]
    have hfront : (0 : Byte) ∉ lit "./bin/extend -p " ++ port := List.not_mem_append (by decide) (hzero hport.2)
    exact List.not_mem_append (List.not_mem_append hfront (by decide)) (hzero hthreads.2)
  have hfirst : lit "./bin/extend -p " = lit "./bin/extend" ++ ([32] ++ (lit "-p" ++ [32])) := by decide
  have hsecond : lit " -t " = [32] ++ (lit "-t" ++ [32]) := by decide
  have hwords : spawnWords port threads [] = [lit "./bin/extend", lit "-p", port, lit "-t", threads] := rfl
  have hline : spawnCommand port threads [] = [32].intercalate (spawnWords port threads []) := by
    rw [hcommand, hwords, hfirst, hsecond]
    simp only [List.intercalate_cons_cons, List.intercalate_singleton, List.append_assoc]
  have hliteral : ∀ w ∈ spawnWords port threads [], w ≠ [] ∧ ∀ c ∈ w, literal c = true := by
    have hword {w : Bytes} (h : w ≠ [] ∧ ∀ c ∈ w, isdigit c = true) : w ≠ [] ∧ ∀ c ∈ w, literal c = true :=
      ⟨h.1, fun c hc => literal_of_isdigit (h.2 c hc)⟩
    rw [hwords]
    simp only [List.forall_mem_cons]
    exact ⟨⟨by decide, List.all_eq_true.mp rfl⟩, ⟨by decide, List.all_eq_true.mp rfl⟩, hword hport,
      ⟨by decide, List.all_eq_true.mp rfl⟩, hword hthreads, fun _ h => absurd h List.not_mem_nil⟩
  rw [hcstr, hline, simpleCommand, read_words hliteral]
  rfl

section Count
variable {port threads : Bytes} (hport : ∀ c ∈ port, isdigit c = true) (hthreads : ∀ c ∈ threads, isdigit c = true)
  {c : Byte} (hc : isdigit c = false) (directory : Bytes)

include hport hthreads hc

theorem count_spawnWords :
    (spawnWords port threads directory).flatten.count c =
      (lit "./bin/extend").count c + (lit "-p").count c + (lit "-t").count c +
        if directory = [] then 0 else (lit "-d").count c + (decodeSlashes directory).count c := by
  unfold spawnWords
  split_ifs
  · simp [List.count_append, count_digits hport hc, count_digits hthreads hc]
    omega
  · simp [List.count_append, count_digits hport hc, count_digits hthreads hc]
    omega

theorem count_spawnCommand :
    (spawnCommand port threads directory).count c =
      (lit "./bin/extend -p ").count c + (lit " -t ").count c +
        if directory = [] then 0 else (lit " -d \"").count c + directory.count c + (lit "\"").count c := by
  unfold spawnCommand
  rw [ite_not]
  split_ifs
  · simp only [List.count_append, count_digits hport hc, count_digits hthreads hc]
    omega
  · simp only [List.count_append, count_digits hport hc, count_digits hthreads hc]
    omega

end Count

/-- The command is the simple command that it is meant to be exactly if the directory is empty. -/
theorem apiSpawn_parsed_iff {req : Request} {router client : Bool} {cluster : Cluster} {d : Directory} {now : Int}
    {spawn : Spawn} {command : Bytes} (h : apiSpawn req router client cluster d now = .ok spawn)
    (hcommand : spawn.command = some command) :
    simpleCommand command =
        some (spawnWords (req.arg (lit "port")) (req.arg (lit "threads")) (req.arg (lit "directory"))) ↔
      req.arg (lit "directory") = [] := by
  obtain ⟨hport, hthreads, hlength, joined, hjoined, rfl⟩ := apiSpawn_command h hcommand
  obtain ⟨hport, hportDigits⟩ := digits_of_port hport
  obtain ⟨hthreads, hthreadsDigits⟩ := digits_of_threads hthreads
  generalize req.arg (lit "port") = port at *
  generalize req.arg (lit "threads") = threads at *
  generalize req.arg (lit "directory") = directory at *
  constructor
  · intro hparsed
    by_contra hne
    have hsub := (simpleCommand_sublist hparsed).trans (cstr_isPrefix _).sublist
    by_cases hnone : joined = []
    · -- There is no `-d`.
      have hdashes := hsub.count_le 45
      rw [count_spawnWords hportDigits hthreadsDigits (by decide), if_neg hne,
        count_spawnCommand hportDigits hthreadsDigits (by decide), if_pos hnone] at hdashes
      have hname : (lit "./bin/extend").count 45 = 0 := by decide
      have hport : (lit "-p").count 45 = 1 := by decide
      have hthreads : (lit "-t").count 45 = 1 := by decide
      have hdirectory : (lit "-d").count 45 = 1 := by decide
      have hfront : (lit "./bin/extend -p ").count 45 = 1 := by decide
      have hmiddle : (lit " -t ").count 45 = 1 := by decide
      omega
    · -- There is an encoded slash, and no slash for it.
      have hencoded : lit "%2f" <:+: directory := by
        by_contra hnot
        rw [spawnDirectory, Occurrence.find_eq_none_iff.mpr hnot] at hjoined
        exact hnone (Except.ok.inj hjoined).symm
      have hdecoded := (count_decodeSlashes directory).2 hencoded
      have hkept := (spawnDirectory_sublist hlength hjoined).count_le 47
      have hslashes := hsub.count_le 47
      rw [count_spawnWords hportDigits hthreadsDigits (by decide), if_neg hne,
        count_spawnCommand hportDigits hthreadsDigits (by decide), if_neg hnone] at hslashes
      have hname : (lit "./bin/extend").count 47 = 2 := by decide
      have hfront : (lit "./bin/extend -p ").count 47 = 2 := by decide
      have hmiddle : (lit " -t ").count 47 = 0 := by decide
      have hoption : (lit " -d \"").count 47 = 0 := by decide
      have hquote : (lit "\"").count 47 = 0 := by decide
      omega
  · rintro rfl
    obtain rfl := Except.ok.inj hjoined
    exact spawnCommand_nil ⟨hport, hportDigits⟩ ⟨hthreads, hthreadsDigits⟩

/-- A call with a port, a number of threads and a directory. -/
def spawnRequest (port threads directory : Bytes) : Request where
  client := { received := [], fits := Nat.zero_le maxRequestSize }
  args := StrMap.assign ∅ [⟨lit "token", lit "kobutcha"⟩, ⟨lit "port", port⟩, ⟨lit "threads", threads⟩,
    ⟨lit "directory", directory⟩]

def emptyDirectory : Directory := { opendir := some [] }

/-- A cluster of a boss without files. -/
def lonely : Cluster := Cluster.start (lit "127.0.0.1") (lit "8080") (lit "public") { directory := emptyDirectory }

theorem apiSpawn_parsed_nil : ∃ spawn command,
    apiSpawn (spawnRequest (lit "8081") (lit "2") []) true true lonely emptyDirectory 0 = .ok spawn ∧
      spawn.command = some command ∧
        simpleCommand command = some [lit "./bin/extend", lit "-p", lit "8081", lit "-t", lit "2"] := by
  have hrun : (apiSpawn (spawnRequest (lit "8081") (lit "2") []) true true lonely emptyDirectory 0).map
      Spawn.command = .ok (some (lit "./bin/extend -p 8081 -t 2")) := by decide
  obtain ⟨spawn, hspawn, hcommand⟩ := map_eq_ok.mp hrun
  exact ⟨spawn, _, hspawn, hcommand, (apiSpawn_parsed_iff hspawn hcommand).mpr rfl⟩

/-- A quote in the directory ends the word, so that what follows is a command; with `%2F` alone the directory is not
passed on, and with `%2f` its slashes are not decoded. -/
theorem apiSpawn_injection :
    ((apiSpawn (spawnRequest (lit "8081") (lit "2") (lit "%2f\";reboot;\"")) true true lonely emptyDirectory 0).map
        Spawn.command = .ok (some (lit "./bin/extend -p 8081 -t 2 -d \"%2f\";reboot;\"\"")) ∧
      simpleCommand (lit "./bin/extend -p 8081 -t 2 -d \"%2f\";reboot;\"\"") = none) ∧
    (apiSpawn (spawnRequest (lit "8081") (lit "2") (lit "a%2Fb")) true true lonely emptyDirectory 0).map
        Spawn.command = .ok (some (lit "./bin/extend -p 8081 -t 2")) ∧
      (apiSpawn (spawnRequest (lit "8081") (lit "2") (lit "a%2fb")) true true lonely emptyDirectory 0).map
        Spawn.command = .ok (some (lit "./bin/extend -p 8081 -t 2 -d \"a%2fb\"")) ∧
        simpleCommand (lit "./bin/extend -p 8081 -t 2 -d \"a%2fb\"") ≠
          some (spawnWords (lit "8081") (lit "2") (lit "a%2fb")) := by
  decide

end Jericho.Api
