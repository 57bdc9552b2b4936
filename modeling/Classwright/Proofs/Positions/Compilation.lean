import Classwright.Proofs.Emit.Limits
import Classwright.Proofs.Positions.Checks
import Classwright.Proofs.Positions.Parsing

/-!
# Compilation does not depend on layout

Source texts with the same words and symbols in the same order are compiled alike, however they are
laid out (`Build.layout_independent`): both to the same class file, or both to an error of the same
kind about the same name.  The parser builds programs that are equal up to positions from them, and
each later stage treats such programs alike.
-/

namespace Classwright

open CompileError (outline)

namespace Build

/-- Two compilations end alike: with the same class file, or with compile errors that differ only in
the places they name. -/
inductive Alike : Except EmitError (Program × ClassFile) → Except EmitError (Program × ClassFile) →
    Prop
  | built {p p' : Program} {f : ClassFile} (h : p'.erase = p.erase) :
    Alike (.ok (p, f)) (.ok (p', f))
  | refused {e e' : CompileError} (h : e'.unplaced = e.unplaced) :
    Alike (.error (.compile e)) (.error (.compile e'))

variable {p p' raw raw' : Program} {text text' : Text}

/-- Errors that are equal up to their positions end a compilation alike. -/
theorem Alike.of_erase {e e' : CompileError} (h : e'.erase = e.erase) :
    Alike (.error (.compile e)) (.error (.compile e')) :=
  .refused (show e'.erase.unplaced = e.erase.unplaced from congrArg CompileError.unplaced h)

theorem emit_alike (hp : p.Checked) (hp' : p'.Checked) (h : p'.erase = p.erase)
    (log log' : List String) : Alike (emit log p).result (emit log' p').result := by
  have hpool : PoolBuilder.ofProgram p' = PoolBuilder.ofProgram p :=
    (Program.identifies_of_erase h).ofProgram
  have hfile : p'.classFile.mapError EmitError.erase = p.classFile.mapError EmitError.erase :=
    Program.classFile_congr h
  unfold emit
  cases hofProgram : PoolBuilder.ofProgram p with
  | error e =>
    have hfail : p.classFile = .error e := by rw [Program.classFile, hofProgram]; rfl
    have hfail' : p'.classFile = .error e := by rw [Program.classFile, hpool, hofProgram]; rfl
    obtain rfl := PoolBuilder.eq_overflow_of_ofProgram hp.wellFormed hofProgram
    simp only [hfail, hfail']
    exact .refused rfl
  | ok pool =>
    rcases hp.classFile_cases hofProgram with ⟨-, f, hf⟩ | ⟨-, e, -, he⟩
    · rw [hf] at hfile
      have hf' : p'.classFile = .ok f := (mapError_eq_ok EmitError.erase).1 hfile
      simp only [hf, hf']
      exact .built h
    · rcases hp'.classFile_cases (hpool.trans hofProgram) with ⟨-, f', hf'⟩ | ⟨-, e', -, he'⟩
      · rw [he, hf'] at hfile
        cases hfile
      · rw [he, he'] at hfile
        simp only [he, he']
        exact .of_erase (EmitError.compile.inj (Except.error.inj hfile))

/-- Programs that are equal up to positions are compiled alike. -/
theorem ofText_alike (hraw : Program.ofText text = .ok raw)
    (hraw' : Program.ofText text' = .ok raw') (h : raw'.erase = raw.erase) :
    Alike (ofText text).result (ofText text').result := by
  have hreach : raw'.checkReachability.mapError CompileError.erase =
      raw.checkReachability.mapError CompileError.erase := Program.checkReachability_congr h
  have hresolve : raw'.resolve.map Program.erase (Option.map CompileError.erase) =
      raw.resolve.map Program.erase (Option.map CompileError.erase) := by
    rw [← Program.resolve_erase, h, Program.resolve_erase]
  simp only [ofText, hraw, hraw', check]
  cases hr : raw.checkReachability with
  | error e =>
    obtain ⟨e', hr', he⟩ := exists_of_mapError_eq hreach hr
    simp only [hr']
    exact .of_erase he
  | ok u =>
    have hr' : raw'.checkReachability = .ok u := by
      rwa [hr, mapError_ok, mapError_eq_ok] at hreach
    rcases hp : raw.resolve with ⟨p, _ | e⟩ <;> rcases hp' : raw'.resolve with ⟨p', _ | e'⟩ <;>
      simp only [hp, hp', Prod.map_apply, Prod.mk.injEq, Option.map_none, Option.map_some,
        reduceCtorEq, and_false, Option.some.injEq] at hresolve
    · have hanalyze : p'.analyze.mapError CompileError.erase =
          p.analyze.mapError CompileError.erase := Program.analyze_congr hresolve.1
      simp only [hr']
      cases ha : p.analyze with
      | error e =>
        obtain ⟨e', ha', he⟩ := exists_of_mapError_eq hanalyze ha
        simp only [ha']
        exact .of_erase he
      | ok u =>
        have ha' : p'.analyze = .ok u := by
          rwa [ha, mapError_ok, mapError_eq_ok] at hanalyze
        simp only [ha']
        exact emit_alike (Passes.checked ⟨raw, hraw, hr, hp, ha⟩)
          (Passes.checked ⟨raw', hraw', hr', hp', ha'⟩) hresolve.1 _ _
    · simp only [hr']
      exact .of_erase hresolve.2

variable {ts ts' : List Token}

/-- Source texts that are laid out differently are compiled alike. -/
theorem alike_of_lexemes (hts : Token.ofText text = .ok ts) (hts' : Token.ofText text' = .ok ts')
    (h : ts'.map Token.lexeme = ts.map Token.lexeme) :
    Alike (ofText text).result (ofText text').result := by
  have hparse : outline Program.erase (Program.ofText text') =
      outline Program.erase (Program.ofText text) := by
    rw [Program.ofText, Program.ofText, hts, hts']
    exact Program.ofTokens_congr h
  cases hraw : Program.ofText text with
  | error e =>
    rw [hraw] at hparse
    obtain ⟨e', hraw', he⟩ := CompileError.exists_of_outline_error hparse
    simp only [ofText, hraw, hraw']
    exact .refused he
  | ok raw =>
    obtain ⟨raw', hraw', herase⟩ := CompileError.exists_of_outline hparse hraw
    exact ofText_alike hraw hraw' herase

/-- **Layout independence**: source texts that are scanned into the same kinds of tokens with the
same contents, wherever these stand, are both compiled, to the same class file, or both refused, by
errors of the same kind about the same name. -/
theorem layout_independent (hts : Token.ofText text = .ok ts) (hts' : Token.ofText text' = .ok ts')
    (h : ts'.map Token.lexeme = ts.map Token.lexeme) :
    (∃ p p' f, (ofText text).result = .ok (p, f) ∧ (ofText text').result = .ok (p', f) ∧
      p'.erase = p.erase) ∨
    (∃ e e' : CompileError, (ofText text).result = .error (.compile e) ∧
      (ofText text').result = .error (.compile e') ∧ e'.kind = e.kind ∧
      e'.cause.name = e.cause.name) := by
  have halike := alike_of_lexemes hts hts' h
  generalize (ofText text).result = x, (ofText text').result = x' at halike ⊢
  cases halike with
  | built h => exact Or.inl ⟨_, _, _, rfl, rfl, h⟩
  | refused h => exact Or.inr ⟨_, _, rfl, rfl, CompileError.kind_of_unplaced h,
      CompileError.name_of_unplaced h⟩

/-- The factorial program laid out in another way. -/
def spreadSource : Text :=
  Text.ofString ("// laid out by hand\nclass F\n\x7b /* counts\ncalls */ int t;public int " ++
    "f(int n)\x7bt=t+1;if(n<=1)\x7breturn 1;\x7d\n\treturn n*f(n-1);\x7d\x7d // end\n")

set_option maxRecDepth 20000 in
theorem spreadSource_lexemes : (Token.ofText spreadSource).map (·.map Token.lexeme) =
    (Token.ofText factorialSource).map (·.map Token.lexeme) := by
  simp only [spreadSource, factorialSource, Text.ofString_append]
  repeat rw [Text.ofString_ofList]
  cbv

theorem layout_independent_spread : ∃ ts ts', Token.ofText factorialSource = .ok ts ∧
    Token.ofText spreadSource = .ok ts' ∧ ts'.map Token.lexeme = ts.map Token.lexeme ∧
    ∃ p p' f, (ofText factorialSource).result = .ok (p, f) ∧
      (ofText spreadSource).result = .ok (p', f) ∧ p'.erase = p.erase := by
  obtain ⟨p, f, hbuild, -⟩ := factorialSource_builds
  obtain ⟨raw, hraw, -⟩ := stages hbuild
  obtain ⟨ts, hts, -⟩ := bind_eq_ok.1 hraw
  have hlexemes := spreadSource_lexemes
  rw [hts] at hlexemes
  cases hts' : Token.ofText spreadSource with
  | error e =>
    rw [hts'] at hlexemes
    cases hlexemes
  | ok ts' =>
    rw [hts'] at hlexemes
    have h : ts'.map Token.lexeme = ts.map Token.lexeme := Except.ok.inj hlexemes
    refine ⟨ts, ts', hts, rfl, h, ?_⟩
    rcases layout_independent hts hts' h with hbuilt | ⟨e, e', herror, -⟩
    · exact hbuilt
    · rw [hbuild] at herror
      cases herror

end Build

end Classwright
