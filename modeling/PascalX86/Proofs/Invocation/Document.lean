import PascalX86.Proofs.Invocation.Path
import PascalX86.Proofs.Parsing.Early

/-!
# Documents

What the files of a run hold after it, whatever they held before: each of them what this source makes of
it, or the error that kept it from being made. No other file changes.
-/

set_option autoImplicit false

namespace PascalX86

/-- What a run can write. -/
inductive Document where
  | tokens | tree | assembly
  deriving DecidableEq

def Document.file : Document → String
  | .tokens => tokensFile
  | .tree => treeFile
  | .assembly => assemblyFile

def Product.documents : Product → List Document
  | .tokens => [.tokens]
  | .tree => [.tree]
  | .assembly => [.tree, .assembly]

/-- A document of a source, or the error that there is instead of it. -/
def Source.document (source : Source) : Document → Except CompileError String
  | .tokens => (source.tokens.map tokenTable).mapError .lexical
  | .tree => source.program.map Program.listing
  | .assembly => source.program.bind fun p => (p.lower.map Listing.text).mapError .lowering

/-- What stands in the file of a document. -/
def Source.written (source : Source) (d : Document) : String :=
  match source.document d with
  | .ok text => text
  | .error e => e.message

/-- What a run answers for its documents. They are all made, or its status is that of an error that one
of them has, and the same for all that have one. -/
structure Compilation.Answers (c : Compilation) (source : Source) (documents : List Document) : Prop where
  texts : c.texts = documents.map fun d => (d.file, source.written d)
  made : (∀ d ∈ documents, ∃ text, source.document d = .ok text) → c.status = 0
  failed : ∀ d ∈ documents, ∀ e, source.document d = .error e → c.status = e.exitCode

theorem CompileError.mem_exitCode (e : CompileError) : e.exitCode ∈ [2, 3, 4] := by
  unfold CompileError.exitCode
  cases e.kind <;> decide

section Compilations

variable {source : Source} {p : Program} {e : CompileError}

theorem document_of_error (refused : source.program = .error e) :
    source.document .tree = .error e ∧ source.document .assembly = .error e := by
  simp [Source.document, refused, Except.map, Except.bind]

theorem document_of_ok (accepted : source.program = .ok p) :
    source.document .tree = .ok p.listing ∧
      source.document .assembly = (p.lower.map Listing.text).mapError .lowering := by
  simp [Source.document, accepted, Except.map, Except.bind]

theorem answers_tokens (source : Source) : (source.compile .tokens).Answers source [.tokens] := by
  cases found : source.tokens with
  | error e =>
      have tokens : source.document .tokens = .error (.lexical e) := by
        rw [Source.document, found]
        rfl
      constructor <;> simp [Source.compile, Source.written, found, tokens, Compilation.failure,
        Product.files, Document.file]
  | ok ts =>
      have tokens : source.document .tokens = .ok (tokenTable ts) := by
        rw [Source.document, found]
        rfl
      constructor <;> simp [Source.compile, Source.written, found, tokens, Compilation.success,
        Document.file]

theorem answers_tree (source : Source) : (source.compile .tree).Answers source [.tree] := by
  cases found : source.program with
  | error e =>
      obtain ⟨tree, -⟩ := document_of_error found
      constructor <;> simp [Source.compile, Source.compileTree, Source.written, found, tree,
        Compilation.failure, Product.files, Document.file]
  | ok p =>
      obtain ⟨tree, -⟩ := document_of_ok found
      constructor <;> simp [Source.compile, Source.compileTree, Source.written, found, tree,
        Compilation.success, Document.file]

theorem answers_assembly (source : Source) :
    (source.compile .assembly).Answers source [.tree, .assembly] := by
  cases found : source.program with
  | error e =>
      obtain ⟨tree, assembly⟩ := document_of_error found
      constructor <;> simp [Source.compile, Source.compileTree, Source.written, found, tree, assembly,
        Compilation.failure, Product.files, Document.file]
  | ok p =>
      obtain ⟨tree, assembly⟩ := document_of_ok found
      cases lowered : p.lower with
      | error e =>
          rw [lowered, Except.map, Except.mapError] at assembly
          constructor <;> simp [Source.compile, Source.compileTree, Source.written, found, lowered, tree,
            assembly, Compilation.failure, Document.file]
      | ok listing =>
          rw [lowered, Except.map, Except.mapError] at assembly
          constructor <;> simp [Source.compile, Source.compileTree, Source.written, found, lowered, tree,
            assembly, Compilation.success, Document.file]

theorem answers_compile (source : Source) (product : Product) :
    (source.compile product).Answers source product.documents := by
  cases product with
  | tokens => exact answers_tokens source
  | tree => exact answers_tree source
  | assembly => exact answers_assembly source

/-- A tree or a listing that is missing because of the text has no program to be made of. -/
theorem program_of_early {d : Document} (mem : d ∈ Product.assembly.documents)
    (failed : source.document d = .error e) (early : e.kind ≠ .lowering) : source.program = .error e := by
  cases found : source.program with
  | error e' =>
      rcases List.mem_pair.mp mem with rfl | rfl
      · simpa [document_of_error found] using failed
      · simpa [document_of_error found] using failed
  | ok p =>
      obtain ⟨tree, assembly⟩ := document_of_ok found
      rcases List.mem_pair.mp mem with rfl | rfl
      · rw [tree] at failed
        cases failed
      · rw [assembly] at failed
        cases lowered : p.lower with
        | ok listing => simp [lowered, Except.map, Except.mapError] at failed
        | error e' =>
            simp only [lowered, Except.map, Except.mapError, Except.error.injEq] at failed
            rw [← failed] at early
            exact absurd rfl early

/-- An error of the text is the same for all documents that are made together. -/
theorem document_of_early {product : Product} {d d' : Document} (mem : d ∈ product.documents)
    (mem' : d' ∈ product.documents) (failed : source.document d = .error e) (early : e.kind ≠ .lowering) :
    source.document d' = .error e := by
  cases product with
  | tokens =>
      rw [List.mem_singleton.mp mem] at failed
      rwa [List.mem_singleton.mp mem']
  | tree =>
      rw [List.mem_singleton.mp mem] at failed
      rwa [List.mem_singleton.mp mem']
  | assembly =>
      obtain ⟨tree, assembly⟩ := document_of_error (program_of_early mem failed early)
      rcases List.mem_pair.mp mem' with rfl | rfl
      · exact tree
      · exact assembly

/-- What cannot be lowered still has a tree. -/
theorem tree_of_late {d : Document} (failed : source.document d = .error e) (late : e.kind = .lowering) :
    d = .assembly ∧ ∃ text, source.document .tree = .ok text := by
  cases d with
  | tokens =>
      cases found : source.tokens with
      | ok tokens => simp [Source.document, found, Except.map, Except.mapError] at failed
      | error e' =>
          simp only [Source.document, found, Except.map, Except.mapError, Except.error.injEq] at failed
          rw [← failed] at late
          cases late
  | tree =>
      cases found : source.program with
      | ok p => simp [document_of_ok found] at failed
      | error e' =>
          simp only [document_of_error found, Except.error.injEq] at failed
          rw [← failed] at late
          exact absurd late (source.kind_of_refused found)
  | assembly =>
      cases found : source.program with
      | ok p => exact ⟨rfl, _, (document_of_ok found).1⟩
      | error e' =>
          simp only [document_of_error found, Except.error.injEq] at failed
          rw [← failed] at late
          exact absurd late (source.kind_of_refused found)

end Compilations

namespace FileTree

/-- Files that are written as they are, where something else says what opening one of them reads. -/
def accessTo (read : FileTree → String → Option Source) : FileAccess (StateM FileTree) :=
  { access with open? := fun path => return read (← get) path }

theorem accessTo_open : accessTo open? = access := rfl

/-- Whether a text can be written under this path. -/
def Writable (t : FileTree) (path : String) : Prop :=
  ∃ place, t.resolve path = some place ∧ t.isDirectory place = false

def content? (t : FileTree) (path : String) : Option String := (t.resolve path).bind fun place => t.files.lookup place

/-- Texts written one after the other into the files of a directory. -/
def putAll (t : FileTree) (here : Path) : List (String × String) → FileTree
  | [] => t
  | (name, text) :: rest => (t.put (here ++ [name]) text).putAll here rest

section Writing

variable {t : FileTree} {here path : Path} {texts : List (String × String)} {directory : String}

theorem isDirectory_putAll (inside : t.isDirectory here = true) (path : Path) :
    (t.putAll here texts).isDirectory path = t.isDirectory path := by
  induction texts generalizing t with
  | nil => rfl
  | cons x texts ih =>
      have same : ∀ path, (t.put (here ++ [x.1]) x.2).isDirectory path = t.isDirectory path :=
        isDirectory_put inside
      rw [putAll, ih ((same here).trans inside), same]

theorem lookup_putAll_of_ne (other : ∀ x ∈ texts, path ≠ here ++ [x.1]) :
    (t.putAll here texts).files.lookup path = t.files.lookup path := by
  induction texts generalizing t with
  | nil => rfl
  | cons x texts ih =>
      rw [List.forall_mem_cons] at other
      rw [putAll, ih other.2, lookup_put_of_ne other.1]

theorem lookup_putAll (names : (texts.map Prod.fst).Nodup) {x : String × String} (mem : x ∈ texts) :
    (t.putAll here texts).files.lookup (here ++ [x.1]) = some x.2 := by
  induction texts generalizing t with
  | nil => cases mem
  | cons y texts ih =>
      rw [List.map_cons, List.nodup_cons] at names
      rw [putAll]
      rcases List.mem_cons.mp mem with rfl | mem
      · -- The names after it are others.
        rw [lookup_putAll_of_ne, lookup_put]
        intro y mem same
        have name : x.1 = y.1 := by simpa using same
        exact names.1 (name ▸ List.mem_map_of_mem mem)
      · exact ih names.2 mem

theorem run_write (read : FileTree → String → Option Source) (path text : String) :
    ((accessTo read).write path text).run t =
      ((t.write? path text).isSome, (t.write? path text).getD t) := by
  simp only [accessTo, access, StateT.run_bind, StateT.run_get, pure_bind]
  cases t.write? path text <;> rfl

theorem run_writeAll (read : FileTree → String → Option Source) (inside : t.isDirectory here = true)
    (places : ∀ x ∈ texts, t.resolve (pathIn directory x.1) = some (here ++ [x.1]) ∧
      t.isDirectory (here ++ [x.1]) = false) :
    ((accessTo read).writeAll directory texts).run t = (none, t.putAll here texts) := by
  induction texts generalizing t with
  | nil => rfl
  | cons x texts ih =>
      rw [List.forall_mem_cons] at places
      obtain ⟨⟨place, free⟩, places⟩ := places
      have same : ∀ path, (t.put (here ++ [x.1]) x.2).isDirectory path = t.isDirectory path :=
        isDirectory_put inside
      have written : t.write? (pathIn directory x.1) x.2 = some (t.put (here ++ [x.1]) x.2) := by
        simp [write?, place, free]
      have rest := ih ((same here).trans inside) fun y mem => by
        rw [resolve_congr same, same]
        exact places y mem
      rw [FileAccess.writeAll, StateT.run_bind, run_write, written]
      exact rest

end Writing

section Running

variable {t : FileTree} {read : FileTree → String → Option Source} {job : Job} {source : Source}

theorem plain_file (d : Document) : Plain d.file := by
  cases d <;> exact ⟨by decide, by decide, by decide, by decide⟩

theorem nodup_files (product : Product) : (product.documents.map Document.file).Nodup := by
  cases product <;> decide

/-- Where a run writes, and what it answers. -/
theorem run_runJob (opened : read t job.input = some source)
    (writable : ∀ d ∈ job.product.documents, t.Writable (pathIn job.directory d.file)) :
    ∃ here, t.isDirectory here = true ∧
      (∀ d : Document, t.resolve (pathIn job.directory d.file) = some (here ++ [d.file])) ∧
      ((accessTo read).runJob job).run t =
        (⟨(source.compile job.product).status, "", (source.compile job.product).report⟩,
          t.putAll here (source.compile job.product).texts) := by
  obtain ⟨base, directory, places⟩ := t.exists_base job.directory
  have place (d : Document) := places d.file (plain_file d)
  cases base with
  | none =>
      -- Then nothing could be written.
      obtain ⟨d, mem⟩ : ∃ d, d ∈ job.product.documents := by
        cases job.product <;> exact ⟨_, List.mem_cons_self⟩
      obtain ⟨_, leads, -⟩ := writable d mem
      rw [place] at leads
      cases leads
  | some here =>
      refine ⟨here, directory here rfl, place, ?_⟩
      have texts := (answers_compile source job.product).texts
      have places : ∀ x ∈ (source.compile job.product).texts,
          t.resolve (pathIn job.directory x.1) = some (here ++ [x.1]) ∧ t.isDirectory (here ++ [x.1]) = false := by
        rw [texts, List.forall_mem_map]
        intro d selected
        obtain ⟨_, leads, free⟩ := writable d selected
        rw [place] at leads
        cases leads
        exact ⟨place d, free⟩
      have written := run_writeAll read (directory here rfl) places
      have source? : ((accessTo read).open? job.input).run t = (some source, t) := by
        rw [← opened]
        rfl
      rw [FileAccess.runJob, StateT.run_bind, source?]
      change ((accessTo read).writeAll job.directory (source.compile job.product).texts >>= _).run t = _
      rw [StateT.run_bind, written]
      rfl

/-- What a run is to leave of the files there were, with its status: each of its documents as this
source makes it or the error it has instead, and nothing else changed. -/
structure Leaves (t t' : FileTree) (source : Source) (job : Job) (status : Nat) : Prop where
  fresh : ∀ d ∈ job.product.documents,
    t'.content? (pathIn job.directory d.file) = some (source.written d)
  others : ∀ place, (∀ d ∈ job.product.documents, t.resolve (pathIn job.directory d.file) ≠ some place) →
    t'.files.lookup place = t.files.lookup place
  directories : ∀ path, t'.isDirectory path = t.isDirectory path
  success : status = 0 ↔ ∀ d ∈ job.product.documents, ∃ text, source.document d = .ok text
  failure : ∀ d ∈ job.product.documents, ∀ e, source.document d = .error e →
    status = e.exitCode ∧ status ∈ [2, 3, 4]

theorem leaves_runJob (opened : read t job.input = some source)
    (writable : ∀ d ∈ job.product.documents, t.Writable (pathIn job.directory d.file)) :
    t.Leaves (((accessTo read).runJob job).run t).2 source job (((accessTo read).runJob job).run t).1.status := by
  obtain ⟨here, inside, place, run⟩ := run_runJob opened writable
  obtain ⟨texts, made, failed⟩ := answers_compile source job.product
  have names : ((source.compile job.product).texts.map Prod.fst).Nodup := by
    rw [texts, List.map_map]
    exact nodup_files job.product
  have directories : ∀ path, (t.putAll here (source.compile job.product).texts).isDirectory path =
      t.isDirectory path := isDirectory_putAll inside
  rw [run]
  show t.Leaves (t.putAll here (source.compile job.product).texts) source job (source.compile job.product).status
  constructor
  case fresh =>
    intro d mem
    rw [content?, resolve_congr directories, place, Option.bind_some]
    have written : (d.file, source.written d) ∈ (source.compile job.product).texts := by
      rw [texts]
      exact List.mem_map_of_mem mem
    exact lookup_putAll names written
  case others =>
    intro path other
    refine lookup_putAll_of_ne fun x mem => ?_
    rw [texts] at mem
    obtain ⟨d, selected, rfl⟩ := List.mem_map.mp mem
    rintro rfl
    exact other d selected (place d)
  case directories => exact directories
  case success =>
    refine ⟨fun status d mem => ?_, made⟩
    cases document : source.document d with
    | ok text => exact ⟨text, rfl⟩
    | error e =>
        have code := e.mem_exitCode
        rw [← failed d mem e document, status] at code
        exact absurd code (by decide)
  case failure =>
    intro d mem e document
    have code := failed d mem e document
    exact ⟨code, code ▸ e.mem_exitCode⟩

theorem Leaves.content {t' : FileTree} {status : Nat} {d : Document} (leaves : t.Leaves t' source job status)
    (mem : d ∈ job.product.documents) {e : CompileError} (failed : source.document d = .error e) :
    t'.content? (pathIn job.directory d.file) = some e.message := by
  rw [leaves.fresh d mem, Source.written, failed]

/-- A run leaves no document of an earlier one. An error of the text stands in all documents that were
asked for; one of the lowering stands in the listing only, next to the tree that a run for the tree
alone writes. -/
theorem documents_fresh (opened : read t job.input = some source)
    (writable : ∀ d ∈ job.product.documents, t.Writable (pathIn job.directory d.file)) :
    ∃ outcome t', ((accessTo read).runJob job).run t = (outcome, t') ∧
      t.Leaves t' source job outcome.status ∧
      (∀ d ∈ job.product.documents, ∀ e, source.document d = .error e → e.kind ≠ .lowering →
        ∀ d' ∈ job.product.documents, t'.content? (pathIn job.directory d'.file) = some e.message) ∧
      ∀ d ∈ job.product.documents, ∀ e, source.document d = .error e → e.kind = .lowering →
        d = .assembly ∧ t'.content? (pathIn job.directory assemblyFile) = some e.message ∧
          ∃ text outcome₁ t₁, source.document .tree = .ok text ∧
            t'.content? (pathIn job.directory treeFile) = some text ∧
            ((accessTo read).runJob { job with product := .tree }).run t = (outcome₁, t₁) ∧
            outcome₁.status = 0 ∧ t₁.content? (pathIn job.directory treeFile) = some text := by
  have leaves := leaves_runJob opened writable
  refine ⟨_, _, rfl, leaves, fun d mem e failed early d' mem' => ?_, fun d mem e failed late => ?_⟩
  · exact leaves.content mem' (document_of_early mem mem' failed early)
  · obtain ⟨rfl, text, tree⟩ := tree_of_late failed late
    have selected : Document.tree ∈ job.product.documents := by
      cases product : job.product <;> simp_all [Product.documents]
    have alone := @leaves_runJob t read { job with product := .tree } source opened fun d mem => by
      rw [List.mem_singleton.mp mem]
      exact writable _ selected
    have written : source.written .tree = text := by rw [Source.written, tree]
    refine ⟨rfl, leaves.content mem failed, text, _, _, tree, ?_, rfl, ?_, ?_⟩
    · rw [← written]
      exact leaves.fresh .tree selected
    · refine alone.success.mpr fun d mem => ⟨text, ?_⟩
      rw [List.mem_singleton.mp mem, tree]
    · rw [← written]
      exact alone.fresh .tree List.mem_cons_self

end Running

/-- A source, what an earlier run has left of another one, and a file that no run makes. -/
def stale : FileTree where
  files := [(["a.pas"], "begin x := 1; end."), (["out", treeFile], "old"), (["out", "notes"], "kept")]
  directories := [["out"]]

theorem resolve_stale : stale.resolve "a.pas" = some ["a.pas"] ∧
    stale.resolve (pathIn "out" treeFile) = some ["out", treeFile] ∧
    stale.resolve (pathIn "out" assemblyFile) = some ["out", assemblyFile] := by
  simp only [resolve, splitOn_slash]
  decide +kernel

theorem open_stale : stale.open? "a.pas" = some (.ofText "a.pas" "begin x := 1; end.") := by
  rw [open?, resolve_stale.1]
  rfl

theorem documents_fresh_stale : ∃ outcome t',
    (access.runJob ⟨.assembly, "a.pas", "out"⟩).run stale = (outcome, t') ∧ outcome.status ≠ 0 ∧
      (∀ d ∈ Product.assembly.documents,
        t'.content? (pathIn "out" d.file) = some "Lexical error at 1:7: Identifier not found `x`") ∧
      t'.files.lookup ["out", "notes"] = some "kept" := by
  have fails (d : Document) (mem : d ∈ Product.assembly.documents) :
      ((Source.ofText "a.pas" "begin x := 1; end.").document d).toOption = none ∧
        (Source.ofText "a.pas" "begin x := 1; end.").written d =
          "Lexical error at 1:7: Identifier not found `x`" := by
    revert d
    decide +kernel
  have writable (d : Document) (mem : d ∈ Product.assembly.documents) :
      stale.Writable (pathIn "out" d.file) := by
    rcases List.mem_pair.mp mem with rfl | rfl
    · exact ⟨_, resolve_stale.2.1, by decide⟩
    · exact ⟨_, resolve_stale.2.2, by decide⟩
  obtain ⟨outcome, t', run, leaves, -⟩ :=
    @documents_fresh stale open? ⟨.assembly, "a.pas", "out"⟩ _ open_stale writable
  refine ⟨outcome, t', run, fun made => ?_, fun d mem => ?_, ?_⟩
  · obtain ⟨text, document⟩ := leaves.success.mp made .tree List.mem_cons_self
    have none := (fails .tree List.mem_cons_self).1
    rw [document] at none
    cases none
  · rw [← (fails d mem).2]
    exact leaves.fresh d mem
  · have notes : ["out", "notes"] ≠ ["out", treeFile] ∧ ["out", "notes"] ≠ ["out", assemblyFile] := by decide
    rw [leaves.others]
    · decide
    · intro d mem place
      rcases List.mem_pair.mp mem with rfl | rfl
      · exact notes.1 (Option.some.inj (place.symm.trans resolve_stale.2.1))
      · exact notes.2 (Option.some.inj (place.symm.trans resolve_stale.2.2))

end FileTree

end PascalX86
