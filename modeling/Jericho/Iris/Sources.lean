import Jericho.Iris.Interpret

/-! The files that a page is put together from. -/
namespace Jericho.Iris
open StdText Util
variable {σ : Type}

/-- What `parseTemp` collects of the name of a template and of its package. -/
structure TemplateScan where
  bracket : Bool := false
  tempName : Bool := false
  pack : Bool := false
  name : Bytes := []
  packageName : Bytes := []

/-- One character. The marks of the body and of the parameters are not part of a name. -/
def TemplateScan.read (t : TemplateScan) (c : Byte) : TemplateScan :=
  if c = 91 then { t with bracket := true }
  else if c = 61 then { t with tempName := true }
  else if c = 93 then { t with bracket := false, tempName := false }
  else if c = 123 ∨ c = 125 ∨ c = 40 ∨ c = 41 then t
  else if c = 64 then { t with pack := true }
  else if c = 46 ∧ t.pack then { t with pack := false }
  else
    { t with
      name := if t.bracket && t.tempName && !t.pack then t.name ++ [c] else t.name
      packageName := if t.pack then t.packageName ++ [c] else t.packageName }

/-- The file that `parseTemp` reads, in the directory of the page or in that of a package. -/
def templatePath (dir : Bytes) (lex : Lex) : Bytes :=
  let t := lex.first.foldl TemplateScan.read {}
  (if t.packageName = [] then dir else lit "./public/frontend/" ++ t.packageName ++ lit "/") ++ lit "@" ++ t.name

/-- The templates that are read for a page. One that is repeated no times has no text, and is not read. -/
def templates (env : Env σ) (file : Bytes) : List Bytes :=
  ((scanzz (env.disk.read (cstr file)) itemp).filter fun lex => env.parseTemp (dirOf file) lex ≠ .ok []).map
    (templatePath (dirOf file))

/-- The partials that are read for a page. -/
def partials (env : Env σ) (file : Bytes) : List Bytes :=
  (scanzz (env.disk.read (cstr file)) ipart).filterMap
    (partialPath env.disk (dirOf file) (env.disk.getDir (dirOf file)))

/-- The files whose contents an interpreted page has beside its own. -/
def sources (env : Env σ) (file : Bytes) : List Bytes := (templates env file ++ partials env file).map cstr

/-- A name that starts with an underscore or an at sign, in the directory of a page or in that of a package. -/
inductive Source (dir : Bytes) : Bytes → Prop where
  | own (mark : Byte) (hmark : mark = 95 ∨ mark = 64) (name : Bytes) : Source dir (dir ++ mark :: name)
  | package (mark : Byte) (hmark : mark = 95 ∨ mark = 64) (package name : Bytes) :
      Source dir (lit "./public/frontend/" ++ package ++ lit "/" ++ mark :: name)

theorem source_templatePath (dir : Bytes) (lex : Lex) : Source dir (templatePath dir lex) := by
  have hmark : lit "@" = [64] := by decide
  unfold templatePath
  dsimp only
  rw [hmark, List.append_assoc]
  split_ifs
  · exact .own 64 (.inr rfl) _
  · exact .package 64 (.inr rfl) _ _

/-- What a lookup leaves is the file that it has found, or the one from before. -/
theorem mem_found {found : Bool} {new path : Bytes} {old : Option Bytes}
    (h : path ∈ (if found = true then some new else old)) : path = new ∨ path ∈ old := by
  cases found with
  | true => exact .inl (Option.some.inj h).symm
  | false => exact .inr h

/-- Every character leaves the file found so far, or finds one in a package. -/
theorem source_packageScan (disk : Disk) (dir : Bytes) {l : PackageScan} (c : Byte)
    (h : ∀ path ∈ l.partialPath, Source dir path) : ∀ path ∈ (l.read disk c).partialPath, Source dir path := by
  have hmark : lit "_" = [95] := by decide
  intro path hpath
  unfold PackageScan.read at hpath
  by_cases hat : c = 64
  · rw [if_pos hat] at hpath
    exact h path hpath
  · rw [if_neg hat] at hpath
    by_cases hdot : c = 46
    · rw [if_pos hdot] at hpath
      exact h path hpath
    · rw [if_neg hdot] at hpath
      rcases mem_found hpath with rfl | hold
      · rw [hmark, List.append_assoc]
        exact .package 95 (.inl rfl) _ _
      · exact h path hold

theorem source_partialPath (disk : Disk) (dir : Bytes) (files : List Bytes) (lex : Lex) :
    ∀ path ∈ partialPath disk dir files lex, Source dir path := by
  have hmark : lit "_" = [95] := by decide
  have hscan : ∀ (name : Bytes) (l : PackageScan), (∀ path ∈ l.partialPath, Source dir path) →
      ∀ path ∈ (name.foldl (PackageScan.read disk) l).partialPath, Source dir path := by
    intro name
    induction name with
    | nil => exact fun l h => h
    | cons c name ih => exact fun l h => ih _ (source_packageScan disk dir c h)
  unfold partialPath
  dsimp only
  split_ifs
  · exact hscan _ {} (fun _ hpath => by cases hpath)
  · intro path hpath
    obtain rfl := Option.some.inj hpath
    rw [hmark, List.append_assoc]
    exact .own 95 (.inl rfl) _
  · exact fun _ hpath => by cases hpath

/-- The interpretation of a page puts in no file but those of its directory and of the packages that are marked as
parts. -/
theorem sources_marked (env : Env σ) (file : Bytes) :
    ∀ path ∈ sources env file, ∃ name, Source (dirOf file) name ∧ path = cstr name := by
  intro path hpath
  obtain ⟨name, hname, rfl⟩ := List.mem_map.mp hpath
  refine ⟨name, ?_, rfl⟩
  rcases List.mem_append.mp hname with hname | hname
  · obtain ⟨lex, -, rfl⟩ := List.mem_map.mp hname
    exact source_templatePath _ lex
  · obtain ⟨lex, -, hlex⟩ := List.mem_filterMap.mp hname
    exact source_partialPath _ _ _ lex name hlex

/-- The lookup in the packages reads no file. -/
theorem packageScan_congr (disk : Disk) (read : Bytes → Bytes) :
    PackageScan.read { disk with read := read } = PackageScan.read disk := by
  funext l c
  rfl

/-- What a page is interpreted to depends on the page, on the names of files and on the parts; no other file is in
it. -/
theorem interpret_congr (env : Env σ) (read : Bytes → Bytes) (file : Bytes)
    (hpage : read (cstr file) = env.disk.read (cstr file))
    (hparts : ∀ path ∈ sources env file, read path = env.disk.read path) :
    interpret { env with disk := { env.disk with read := read } } file = interpret env file := by
  have hpath : ∀ lex, partialPath { env.disk with read := read } (dirOf file) (env.disk.getDir (dirOf file)) lex =
      partialPath env.disk (dirOf file) (env.disk.getDir (dirOf file)) lex := by
    intro lex
    unfold partialPath
    rw [packageScan_congr env.disk read]
  have hcontents : ∀ lex ∈ scanzz (env.disk.read (cstr file)) ipart,
      partialContents { env.disk with read := read } (dirOf file) (env.disk.getDir (dirOf file)) lex =
        partialContents env.disk (dirOf file) (env.disk.getDir (dirOf file)) lex := by
    intro lex hlex
    unfold partialContents
    rw [hpath]
    cases hpart : partialPath env.disk (dirOf file) (env.disk.getDir (dirOf file)) lex with
    | none => rfl
    | some path =>
      have hmem : path ∈ partials env file := List.mem_filterMap.mpr ⟨lex, hlex, hpart⟩
      have hsource : cstr path ∈ sources env file := List.mem_map_of_mem (List.mem_append_right _ hmem)
      exact congrArg (fun contents => (some contents).getD []) (hparts _ hsource)
  unfold interpret
  dsimp only
  rw [hpage]
  refine congrArg (Except.bind _) (funext fun s => congrArg (Except.bind _) (funext fun t => ?_))
  refine congrArg Except.ok (List.foldl_ext _ _ t fun b lex hlex => ?_)
  rw [hcontents lex hlex]

end Jericho.Iris
