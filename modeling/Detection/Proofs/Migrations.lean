import Detection.Proofs.ByteOrder
import Detection.Service.Migration
import Mathlib.Data.List.TakeWhile

/-!
# Migrations take effect up to the first that fails

The scripts of a directory are applied in the byte order of their names, each in a transaction of
its own. What has an effect is what was executed in a transaction that was committed. So the effect
of a run is that of the scripts in front of the first one with a statement that fails, and of all
scripts if there is none. The error names the script that failed.

A file is a script by the end of its name, which is compared without regard to letter case.
-/
namespace Detection

open Text

/-! ## What takes effect -/

/-- The statements that take effect: those of the transactions that are committed. The statements
of a transaction that is still open are `pending`. -/
def effectsFrom (pending : List String) : List DatabaseEvent → List String
  | [] => []
  | .began :: events => effectsFrom [] events
  | .executed statement :: events => effectsFrom (pending ++ [statement]) events
  | .committed :: events => pending ++ effectsFrom [] events
  | .rolledBack :: events => effectsFrom [] events

/-- The statements that take effect in a run. -/
def effects (events : List DatabaseEvent) : List String :=
  effectsFrom [] events

/-- Statements that are executed wait for the end of their transaction. -/
theorem effectsFrom_executed (pending executed : List String) (events : List DatabaseEvent) :
    effectsFrom pending (executed.map .executed ++ events) =
      effectsFrom (pending ++ executed) events := by
  induction executed generalizing pending with
  | nil => simp
  | cons statement others ih =>
    rw [List.map_cons, List.cons_append, effectsFrom, ih, List.append_assoc,
      List.singleton_append]

/-- What stands between the semicolons of a script and is not blank, without blanks around it. -/
def IsStatements (script : String) (found : List String) : Prop :=
  ∃ pieces : List String, pieces ≠ [] ∧ (∀ piece ∈ pieces, ';' ∉ piece.toList) ∧
    script = join ";" pieces ∧ found = (pieces.map trim).filter (· != "")

theorem isStatements_iff {script : String} {found : List String} :
    IsStatements script found ↔ found = statements script := by
  constructor
  · rintro ⟨pieces, some, plain, rfl, rfl⟩
    have cut : splitAt ';' (join (String.singleton ';') pieces) = pieces := splitAt_join some plain
    exact congrArg (fun pieces => (pieces.map trim).filter (· != "")) cut.symm
  · rintro rfl
    refine ⟨splitAt ';' script, ?_, ?_, (join_splitAt ';' script).symm, rfl⟩
    · simpa [splitAt] using splitFrom_ne_nil (· == ';') [] script.toList
    · intro piece own inside
      obtain ⟨chars, listed, rfl⟩ := List.mem_map.mp own
      rw [splitFrom_eq_splitOn] at listed
      rw [String.toList_ofList] at inside
      exact not_mem_of_mem_splitOn listed inside

/-- Whether one of the statements of a script fails. -/
def Fails (refuses : String → Bool) (script : String) : Prop :=
  ∃ statement ∈ statements script, refuses statement = true

section Run

variable {database : Database} (available : database.unavailable = false)

include available

/-- A script that does not fail takes effect as a whole, and nothing is pending afterwards. -/
theorem apply_of_not_fails {script : String} (passes : ¬ Fails database.refuses script) :
    (database.apply script).2 = true ∧ ∀ events,
      effects ((database.apply script).1 ++ events) = statements script ++ effects events := by
  have all : (statements script).takeWhile (!database.refuses ·) = statements script := by
    rw [List.takeWhile_eq_self_iff]
    intro statement own
    rw [Bool.not_eq_true', ← Bool.not_eq_true]
    exact fun refused => passes ⟨statement, own, refused⟩
  simp only [Database.apply, available, all, BEq.rfl, if_true, Bool.false_eq_true, if_false]
  refine ⟨trivial, fun events => ?_⟩
  rw [List.append_assoc, List.cons_append, effects, effectsFrom, effectsFrom_executed]
  rfl

/-- A script that fails takes no effect. -/
theorem apply_of_fails {script : String} (fails : Fails database.refuses script) :
    (database.apply script).2 = false ∧ effects (database.apply script).1 = [] := by
  obtain ⟨statement, own, refused⟩ := fails
  have some : ((statements script).takeWhile (!database.refuses ·)).length ≠
      (statements script).length := by
    intro same
    have all := (List.takeWhile_prefix (!database.refuses ·)).eq_of_length same
    have passes := List.takeWhile_eq_self_iff.mp all statement own
    simp [refused] at passes
  simp only [Database.apply, available, beq_eq_false_iff_ne.mpr some, Bool.false_eq_true, if_false]
  refine ⟨trivial, ?_⟩
  rw [List.cons_append, effects, effectsFrom, effectsFrom_executed]
  rfl

/-- The scripts in front of the first one that fails take effect. -/
theorem applyAll_spec (scripts : List (String × String)) :
    ∃ before rest, scripts = before ++ rest ∧
      (∀ script ∈ before, ¬ Fails database.refuses script.2) ∧
      effects (database.applyAll scripts).1 = before.flatMap (fun script => statements script.2) ∧
      (rest = [] ∧ (database.applyAll scripts).2 = none ∨
        ∃ name text after, rest = (name, text) :: after ∧ Fails database.refuses text ∧
          (database.applyAll scripts).2 = some (.failed name database.failure)) := by
  induction scripts with
  | nil => exact ⟨[], [], rfl, by simp, rfl, .inl ⟨rfl, rfl⟩⟩
  | cons script others ih =>
    obtain ⟨name, text⟩ := script
    by_cases fails : Fails database.refuses text
    · obtain ⟨stopped, nothing⟩ := apply_of_fails available fails
      refine ⟨[], (name, text) :: others, rfl, by simp, ?_,
        .inr ⟨name, text, others, rfl, fails, ?_⟩⟩
      · simpa [Database.applyAll, stopped] using nothing
      · simp [Database.applyAll, stopped]
    · obtain ⟨succeeded, whole⟩ := apply_of_not_fails available fails
      obtain ⟨before, rest, rfl, pass, behind, ending⟩ := ih
      refine ⟨(name, text) :: before, rest, rfl, List.forall_mem_cons.mpr ⟨fails, pass⟩, ?_, ?_⟩
      · simp [Database.applyAll, succeeded, whole, behind]
      · simpa [Database.applyAll, succeeded] using ending

end Run

/-! ## Which scripts are applied -/

/-- Whether a name ends in `.sql` in any letter case. -/
def isScriptName (name : String) : Bool :=
  endsWith ".sql".toList (name.toList.map foldKey)

theorem foldKey_eq_point_iff {c : Char} : foldKey c = '.' ↔ c = '.' := by
  constructor
  · intro folded
    obtain ⟨ascii, lowered⟩ := toLower_of_foldKey (by decide) (by decide) folded
    have point : ∀ c : Char, c.toNat < 128 → c.toLower = '.' → c = '.' := forall_ascii (by decide)
    exact point c ascii lowered
  · rintro rfl
    decide

/-- What is behind the last point of a name. -/
theorem takeWhile_reverse {stem ending : List Char} (plain : '.' ∉ ending) :
    (stem ++ '.' :: ending).reverse.takeWhile (· != '.') = ending.reverse := by
  have kept : ∀ c ∈ ending.reverse, (c != '.') = true := by
    intro c inside
    rw [bne_iff_ne]
    rintro rfl
    exact plain (List.mem_reverse.mp inside)
  simp only [List.reverse_append, List.reverse_cons, List.append_assoc, List.singleton_append]
  rw [List.takeWhile_append_of_pos kept]
  simp

theorem extensionOf_of_plain {name : String} (plain : '.' ∉ name.toList) :
    extensionOf name = "" := by
  have whole : name.toList.reverse.takeWhile (· != '.') = name.toList.reverse := by
    rw [List.takeWhile_eq_self_iff]
    intro c inside
    rw [bne_iff_ne]
    rintro rfl
    exact plain (List.mem_reverse.mp inside)
  simp [extensionOf, whole, String.length_toList]

/-- The ending of a name is what starts at its last point. -/
theorem extensionOf_of_point {name : String} {stem ending : List Char}
    (written : name.toList = stem ++ '.' :: ending) (plain : '.' ∉ ending) :
    extensionOf name = String.ofList ('.' :: ending) := by
  have shorter : ending.length ≠ name.length := by
    rw [← String.length_toList, written, List.length_append, List.length_cons]
    omega
  rw [extensionOf, written, takeWhile_reverse plain, List.length_reverse]
  simp only [beq_eq_false_iff_ne.mpr shorter, Bool.false_eq_true, if_false, List.reverse_reverse]

/-- A name ends in `.sql` if that is what starts at its last point. -/
theorem equalFold_extensionOf (name : String) :
    equalFold (extensionOf name) ".sql" = isScriptName name := by
  have folded {part : List Char} (plain : '.' ∉ part) : '.' ∉ part.map foldKey := by
    intro inside
    obtain ⟨c, own, key⟩ := List.mem_map.mp inside
    exact plain (foldKey_eq_point_iff.mp key ▸ own)
  have spelled : ".sql".toList.map foldKey = '.' :: "sql".toList := by decide
  have literal : ".sql".toList = '.' :: "sql".toList := by decide
  rw [Bool.eq_iff_iff, isScriptName, endsWith, List.isSuffixOf_iff_suffix, equalFold, beq_iff_eq,
    spelled, literal]
  by_cases point : '.' ∈ name.toList
  · obtain ⟨back, front, reversed, notBack⟩ :=
      List.eq_append_cons_of_mem (List.mem_reverse.mpr point)
    have written : name.toList = front.reverse ++ '.' :: back.reverse := by
      rw [← List.reverse_reverse name.toList, reversed]
      simp
    have plain : '.' ∉ back.reverse := by simpa using notBack
    rw [extensionOf_of_point written plain, written, String.toList_ofList, List.map_append,
      List.map_cons, foldKey_eq_point_iff.mpr rfl]
    constructor
    · intro same
      rw [same]
      exact List.suffix_append _ _
    · -- what follows the last point is read off both sides
      rintro ⟨lead, same⟩
      have ends := congrArg (fun text => text.reverse.takeWhile (· != '.')) same
      have letters : '.' ∉ "sql".toList := by decide
      simp only [takeWhile_reverse (folded plain), takeWhile_reverse letters, List.reverse_inj]
        at ends
      rw [ends]
  · rw [extensionOf_of_plain point]
    refine iff_of_false (by simp) fun ends => folded point (ends.subset List.mem_cons_self)

/-- Whether an entry of a directory is a script. -/
def isScript : String × FileTree → Bool
  | (name, .file _) => isScriptName name
  | (_, .directory _) => false

/-- The scripts of a directory in the byte order of their names. -/
structure IsScripts (entries : List (String × FileTree)) (scripts : List (String × String)) :
    Prop where
  listed : (scripts.map fun script => (script.1, FileTree.file script.2)).Perm
    (entries.filter isScript)
  ordered : scripts.Pairwise fun first second => bytes first.1 ≤ bytes second.1

theorem isScripts_scriptsOf (entries : List (String × FileTree)) :
    IsScripts entries (scriptsOf entries) := by
  rw [scriptsOf]
  constructor
  · refine ((List.mergeSort_perm _ _).map _).trans (.of_eq ?_)
    induction entries with
    | nil => rfl
    | cons entry others ih =>
      obtain ⟨name, tree⟩ := entry
      cases tree with
      | file text =>
        cases script : isScriptName name <;>
          simpa [equalFold_extensionOf, isScript, script] using ih
      | directory => simpa [isScript] using ih
  · exact (pairwise_mergeSort_text Prod.fst _).imp (bytes_le_iff _ _).mpr

/-- Migrations take effect up to the first script with a statement that fails. The scripts of a
directory are those in `before`, of which all statements take effect in order and nothing else
does, and a rest. The rest is empty and there is no error, or it starts with a script that fails,
and the error names this script. -/
theorem migrate_applies_prefix (refuses : String → Bool) (failure : String) (disk : Disk)
    (directory : String) {entries : List (String × FileTree)}
    (found : disk directory = .ok (.directory entries)) :
    let outcome := Database.migrate { refuses, failure } disk directory
    (∀ script parts, IsStatements script parts ↔ parts = statements script) ∧
      ∃ before rest, IsScripts entries (before ++ rest) ∧
        (∀ script ∈ before, ¬ Fails refuses script.2) ∧
        effects outcome.1 = before.flatMap (fun script => statements script.2) ∧
        (rest = [] ∧ outcome.2 = none ∨
          ∃ name text after, rest = (name, text) :: after ∧ Fails refuses text ∧
            outcome.2.map MigrationError.message =
              some ("migration " ++ name ++ ": " ++ failure)) := by
  intro outcome
  have applied : outcome = Database.applyAll { refuses, failure } (scriptsOf entries) := by
    simp only [outcome, Database.migrate, found]
  have available : ({ refuses, failure } : Database).unavailable = false := rfl
  obtain ⟨before, rest, scripts, pass, effect, ending⟩ :=
    applyAll_spec available (scriptsOf entries)
  have ordered : IsScripts entries (before ++ rest) := scripts ▸ isScripts_scriptsOf entries
  rw [applied]
  refine ⟨fun _ _ => isStatements_iff, before, rest, ordered, pass, effect, ending.imp_right ?_⟩
  rintro ⟨name, text, after, first, fails, error⟩
  exact ⟨name, text, after, first, fails, congrArg (·.map MigrationError.message) error⟩

/-- The theorem at a directory in which the second script fails at its second statement. The
directory with the name of a script and the file with another ending are passed over, and a capital
letter comes in front of a small one. -/
theorem migrate_applies_prefix_failing :
    let entries : List (String × FileTree) := [("a.sql", .file "insert 2"),
      ("B.SQL", .file "insert 1; drop t; drop u"), ("0.sql", .directory []),
      ("A.Sql", .file " create t ;;\ncreate u;"), ("z.txt", .file "drop t")]
    let refuses := fun statement => statement == "drop t"
    let disk : Disk := fun _ => .ok (.directory entries)
    let outcome := Database.migrate { refuses, failure := "locked" } disk "migrations"
    disk "migrations" = .ok (.directory entries) ∧
      effects outcome.1 = ["create t", "create u"] ∧
      outcome.2.map MigrationError.message = some "migration B.SQL: locked" ∧
      ∃ before rest, IsScripts entries (before ++ rest) ∧
        (∀ script ∈ before, ¬ Fails refuses script.2) ∧
        effects outcome.1 = before.flatMap (fun script => statements script.2) ∧
        (rest = [] ∧ outcome.2 = none ∨
          ∃ name text after, rest = (name, text) :: after ∧ Fails refuses text ∧
            outcome.2.map MigrationError.message =
              some ("migration " ++ name ++ ": " ++ "locked")) := by
  intro entries refuses disk outcome
  have endings : equalFold (extensionOf "a.sql") ".sql" = true ∧
      equalFold (extensionOf "B.SQL") ".sql" = true ∧
      equalFold (extensionOf "A.Sql") ".sql" = true ∧
      equalFold (extensionOf "z.txt") ".sql" = false := by decide
  have sorted : scriptsOf entries = [("A.Sql", " create t ;;\ncreate u;"),
      ("B.SQL", "insert 1; drop t; drop u"), ("a.sql", "insert 2")] := by
    simp [entries, scriptsOf, endings, List.mergeSort, List.MergeSort.Internal.splitInTwo]
  have applied : outcome = Database.applyAll { refuses, failure := "locked" } (scriptsOf entries) :=
    rfl
  have run := migrate_applies_prefix refuses "locked" disk "migrations" rfl
  refine ⟨rfl, ?_, ?_, run.2⟩
  · rw [applied, sorted]
    decide +kernel
  · rw [applied, sorted]
    decide +kernel

end Detection
