import Mathlib

/-!
# Functions from Java methods

`processJavaFuncInfo` makes a function of the interface description from what has been
parsed of a Java method. The types come from its declaration, if it has one, and the names
from its parameters; an `AsyncReturn` in front is no parameter of the function.
-/
namespace PxpRpc.Tools

/-- The types of `idldef`; `remoteObject` is the one whose `remoteName` is `Any`. -/
inductive Type2 where
  | int32
  | int64
  | float32
  | float64
  | remoteObject
  | bytes
  | bool
  | string
deriving DecidableEq, Repr

/-- The type is `None` for `void`. -/
structure TypedVar where
  type2 : Option Type2
  name : String
deriving DecidableEq, Repr

structure Function where
  name : String
  params : List TypedVar
  results : List TypedVar
deriving DecidableEq, Repr

/-- `dict(name=..., type=...)` -/
structure JavaVar where
  name : String
  type : String
deriving DecidableEq, Repr

/-- What `parseJavaSource` collects of a method; the declaration is empty without an annotation. -/
structure FuncInfo where
  name : String
  parameters : List JavaVar
  results : List JavaVar
  typedecl : List Char
deriving DecidableEq, Repr

inductive Raised where
  | valueError
  | keyError
  | indexError
deriving DecidableEq, Repr

def convertJavaTypeToIdlType (jt : String) : Option Type2 :=
  if jt = "void" then none
  else if jt = "ByteBuffer" then some .bytes
  else if jt = "int" then some .int32
  else if jt = "long" then some .int64
  else if jt = "float" then some .float32
  else if jt = "double" then some .float64
  else if jt = "String" then some .string
  else if jt = "boolean" then some .bool
  else some .remoteObject

/-- The `typemap` of `TypesFromTypedeclString`. -/
def typemap : Char → Option Type2
  | 'b' => some .bytes
  | 'i' => some .int32
  | 'l' => some .int64
  | 'f' => some .float32
  | 'd' => some .float64
  | 's' => some .string
  | 'c' => some .bool
  | 'o' => some .remoteObject
  | _ => none

def typesFromTypedeclString (typedecl : List Char) : Except Raised (List Type2) :=
  match typedecl.mapM typemap with
  | some types => .ok types
  | none => .error .keyError

/-- `typedecl.split('->')` -/
def split : List Char → List (List Char)
  | [] => [[]]
  | '-' :: '>' :: cs => [] :: split cs
  | c :: cs =>
    match split cs with
    | [] => [[c]]
    | word :: words => (c :: word) :: words

/-- The variables `arg0`, `arg1`, ... -/
def enumerateVars (stem : String) (types : List Type2) : List TypedVar :=
  types.zipIdx.map fun (t2, t1) => ⟨some t2, stem ++ toString t1⟩

/-- The parameters and the results that are declared. -/
def declared (typedecl : List Char) : Except Raised (List TypedVar × List TypedVar) :=
  if typedecl = [] then .ok ([], [])
  else match split typedecl with
    | [tParam, tResult] => do
      let params ← typesFromTypedeclString tParam
      let results ← typesFromTypedeclString tResult
      return (enumerateVars "arg" params, enumerateVars "ret" results)
    | _ => .error .valueError

def startAt : List JavaVar → Nat
  | [] => 0
  | p :: _ => if p.type = "AsyncReturn" then 1 else 0

/-- `params[t1].name=p1[t1]['name']`, for one index after another. -/
def rename (p1 : List JavaVar) : List Nat → List TypedVar → Except Raised (List TypedVar)
  | [], params => .ok params
  | t1 :: ts, params =>
    match params[t1]?, p1[t1]? with
    | some var, some p => rename p1 ts (params.set t1 { var with name := p.name })
    | _, _ => .error .indexError

def converted (p : JavaVar) : TypedVar := ⟨convertJavaTypeToIdlType p.type, p.name⟩

def processJavaFuncInfo (funcinfo : FuncInfo) : Except Raised Function := do
  let (params, results) ← declared funcinfo.typedecl
  let p1 := funcinfo.parameters
  if funcinfo.typedecl = [] then
    return ⟨funcinfo.name, params ++ (p1.drop (startAt p1)).map converted,
      results ++ (funcinfo.results.take 1).map converted⟩
  else
    let params ← rename p1 (List.range' (startAt p1) (p1.length - startAt p1)) params
    return ⟨funcinfo.name, params, results⟩

/-! ### Declarations -/

/-- The parameters of the function. -/
def FuncInfo.javaParameters (funcinfo : FuncInfo) : List JavaVar :=
  funcinfo.parameters.drop (startAt funcinfo.parameters)

/-- The function has parameters of the types of `P` under the names of the Java parameters, and
results of the types of `R`. -/
def Declares (funcinfo : FuncInfo) (P R : List Char) : Prop :=
  ∃ fn, processJavaFuncInfo funcinfo = .ok fn ∧ fn.params.map TypedVar.type2 = P.map typemap ∧
    fn.params.map TypedVar.name = funcinfo.javaParameters.map JavaVar.name ∧
    fn.results.map TypedVar.type2 = R.map typemap

theorem split_nil_of {w : List Char} (h : '-' ∉ w) : split w = [w] := by
  induction w with
  | nil => rfl
  | cons c w ih =>
    obtain ⟨hc, hw⟩ := not_or.mp (mt List.mem_cons.mpr h)
    rw [split, ih hw]
    exact fun _ hd => absurd hd.symm hc

theorem split_append {w : List Char} (h : '-' ∉ w) (rest : List Char) :
    split (w ++ '-' :: '>' :: rest) = w :: split rest := by
  induction w with
  | nil => rfl
  | cons c w ih =>
    obtain ⟨hc, hw⟩ := not_or.mp (mt List.mem_cons.mpr h)
    rw [List.cons_append, split, ih hw]
    exact fun _ hd => absurd hd.symm hc

theorem not_mem_of_typemap {w : List Char} (h : ∀ c ∈ w, (typemap c).isSome) : '-' ∉ w :=
  fun hm => absurd (h '-' hm) (by decide)

theorem typesFromTypedeclString_eq {w : List Char} (h : ∀ c ∈ w, (typemap c).isSome) :
    ∃ types, typesFromTypedeclString w = .ok types ∧ types.map some = w.map typemap := by
  have hmap : ∃ types, w.mapM typemap = some types ∧ types.map some = w.map typemap := by
    induction w with
    | nil => exact ⟨[], rfl, rfl⟩
    | cons c w ih =>
      obtain ⟨type, ht⟩ := Option.isSome_iff_exists.mp (h c List.mem_cons_self)
      obtain ⟨types, hts, hmap⟩ := ih fun c hc => h c (List.mem_cons_of_mem _ hc)
      refine ⟨type :: types, ?_, by rw [List.map_cons, List.map_cons, ht, hmap]⟩
      rw [List.mapM_cons, ht, hts]
      rfl
  obtain ⟨types, hts, hmap⟩ := hmap
  exact ⟨types, by rw [typesFromTypedeclString, hts], hmap⟩

theorem enumerateVars_types (stem : String) (types : List Type2) :
    (enumerateVars stem types).map TypedVar.type2 = types.map some := by
  rw [enumerateVars, List.map_map]
  conv_rhs => rw [← List.zipIdx_map_fst 0 types, List.map_map]
  rfl

theorem declared_eq {P R : List Char} (hP : ∀ c ∈ P, (typemap c).isSome) (hR : ∀ c ∈ R, (typemap c).isSome) :
    ∃ params results, declared (P ++ '-' :: '>' :: R) = .ok (params, results) ∧
      params.map TypedVar.type2 = P.map typemap ∧ results.map TypedVar.type2 = R.map typemap := by
  obtain ⟨params, hparams, hmapP⟩ := typesFromTypedeclString_eq hP
  obtain ⟨results, hresults, hmapR⟩ := typesFromTypedeclString_eq hR
  refine ⟨enumerateVars "arg" params, enumerateVars "ret" results, ?_, ?_, ?_⟩
  · rw [declared, if_neg (by simp), split_append (not_mem_of_typemap hP), split_nil_of (not_mem_of_typemap hR)]
    simp only [hparams, hresults]
    rfl
  · rw [enumerateVars_types, hmapP]
  · rw [enumerateVars_types, hmapR]

/-! ### Names -/

/-- Each variable under the name of the parameter at its place. -/
def named (params : List TypedVar) (ps : List JavaVar) : List TypedVar :=
  List.zipWith (fun var p => { var with name := p.name }) params ps

theorem named_types {params : List TypedVar} {ps : List JavaVar} (h : params.length = ps.length) :
    (named params ps).map TypedVar.type2 = params.map TypedVar.type2 := by
  conv_rhs => rw [← List.map_fst_zip h.le, List.zip, List.map_zipWith, List.map_zipWith]
  rw [named, List.map_zipWith]

theorem named_names {params : List TypedVar} {ps : List JavaVar} (h : params.length = ps.length) :
    (named params ps).map TypedVar.name = ps.map JavaVar.name := by
  conv_rhs => rw [← List.map_snd_zip h.ge, List.zip, List.map_zipWith, List.map_zipWith]
  rw [named, List.map_zipWith]

/-- The variables from an index on get the names of the parameters there. -/
theorem rename_eq {p1 : List JavaVar} {n : Nat} : ∀ {k : Nat} {params : List TypedVar},
    params.length = k + n → p1.length = k + n →
    rename p1 (List.range' k n) params =
      .ok (params.take k ++ named (params.drop k) (p1.drop k)) := by
  induction n with
  | zero =>
    intro k params hlen _
    rw [List.range'_zero, rename, List.take_of_length_le (by omega), List.drop_of_length_le (by omega), named,
      List.zipWith_nil_left, List.append_nil]
  | succ n ih =>
    intro k params hlen hlen1
    have hvar : params[k]? = some params[k] := List.getElem?_eq_getElem (by omega)
    have hp : p1[k]? = some p1[k] := List.getElem?_eq_getElem (by omega)
    rw [List.range'_succ, rename, hvar, hp]
    simp only
    rw [ih (by rw [List.length_set]; omega) (by omega), List.drop_eq_getElem_cons (i := k) (l := params) (by omega),
      List.drop_eq_getElem_cons (i := k) (l := p1) (by omega), named, named, List.zipWith_cons_cons, List.take_add_one,
      List.getElem?_set_self (by omega), List.take_set_of_le le_rfl, List.drop_set_of_lt (by omega)]
    simp

/-- Beyond the last variable there is none to name. -/
theorem rename_raises {p1 : List JavaVar} {n : Nat} : ∀ {k : Nat} {params : List TypedVar},
    k ≤ params.length → params.length < k + n → rename p1 (List.range' k n) params = .error .indexError := by
  induction n with
  | zero => intro k params hk hlt; omega
  | succ n ih =>
    intro k params hk hlt
    rw [List.range'_succ, rename]
    cases hvar : params[k]? with
    | none => rfl
    | some var =>
      have hk' := (List.getElem?_eq_some_iff.mp hvar).1
      cases hp : p1[k]? with
      | none => rfl
      | some p => exact ih (by rw [List.length_set]; omega) (by rw [List.length_set]; omega)

theorem length_javaParameters (funcinfo : FuncInfo) :
    funcinfo.javaParameters.length + startAt funcinfo.parameters = funcinfo.parameters.length := by
  unfold FuncInfo.javaParameters startAt
  cases hp : funcinfo.parameters with
  | nil => rfl
  | cons p ps =>
    dsimp only
    split <;> simp

/-- With a declaration, the variables are renamed. -/
theorem processJavaFuncInfo_declared {funcinfo : FuncInfo} {P R : List Char}
    (h : funcinfo.typedecl = P ++ '-' :: '>' :: R) {params results : List TypedVar}
    (hd : declared funcinfo.typedecl = .ok (params, results)) :
    processJavaFuncInfo funcinfo = (rename funcinfo.parameters (List.range' (startAt funcinfo.parameters)
      (funcinfo.parameters.length - startAt funcinfo.parameters)) params).map
        fun params => ⟨funcinfo.name, params, results⟩ := by
  have hne : funcinfo.typedecl ≠ [] := by
    rw [h]
    simp
  unfold processJavaFuncInfo
  rw [hd]
  change (if funcinfo.typedecl = [] then _ else _) = _
  rw [if_neg hne]
  rfl

/-- The function is as declared if and only if there is no `AsyncReturn`, or nothing behind it;
without a declaration it has the Java parameters with their types converted. -/
theorem processJavaFuncInfo_declares_iff (funcinfo : FuncInfo) :
    (∀ P R, funcinfo.typedecl = P ++ '-' :: '>' :: R → (∀ c ∈ P ++ R, (typemap c).isSome) →
      P.length = funcinfo.javaParameters.length →
      (Declares funcinfo P R ↔ startAt funcinfo.parameters = 0 ∨ funcinfo.javaParameters = [])) ∧
    (funcinfo.typedecl = [] →
      ∃ fn, processJavaFuncInfo funcinfo = .ok fn ∧ fn.params = funcinfo.javaParameters.map converted) := by
  constructor
  · intro P R h hchars hlen
    obtain ⟨params, results, hd, hP, hR⟩ := declared_eq (fun c hc => hchars c (List.mem_append_left R hc))
      (fun c hc => hchars c (List.mem_append_right P hc))
    rw [← h] at hd
    have hprocess := processJavaFuncInfo_declared h hd
    have hplen : params.length = P.length := by simpa using congrArg List.length hP
    have hjava := length_javaParameters funcinfo
    have hsame : params.length = funcinfo.javaParameters.length := hplen.trans hlen
    have hstart : startAt funcinfo.parameters ≤ 1 := by
      unfold startAt
      split
      · decide
      · split <;> decide
    constructor
    · rintro ⟨fn, hfn, -⟩
      by_contra hcon
      obtain ⟨hone, hne⟩ := not_or.mp hcon
      have hpos := List.length_pos_iff.mpr hne
      rw [hprocess, rename_raises (by omega) (by omega)] at hfn
      cases hfn
    · intro hok
      have hrename : rename funcinfo.parameters (List.range' (startAt funcinfo.parameters)
          (funcinfo.parameters.length - startAt funcinfo.parameters)) params =
            .ok (named params funcinfo.javaParameters) := by
        rcases hok with hzero | hnil
        · have heq := @rename_eq funcinfo.parameters funcinfo.parameters.length 0 params (by omega) (by omega)
          have hall : funcinfo.javaParameters = funcinfo.parameters := by
            rw [FuncInfo.javaParameters, hzero, List.drop_zero]
          rw [hzero, Nat.sub_zero, heq, hall]
          rfl
        · rw [hnil] at hjava hlen ⊢
          rw [List.length_nil] at hjava hlen
          rw [show funcinfo.parameters.length - startAt funcinfo.parameters = 0 by omega, List.range'_zero, rename,
            List.length_eq_zero_iff.mp (show params.length = 0 by omega)]
          rfl
      refine ⟨_, by rw [hprocess, hrename]; rfl, ?_, named_names hsame, hR⟩
      rw [← hP]
      exact named_types hsame
  · intro h
    have hd : declared funcinfo.typedecl = .ok ([], []) := by
      rw [h]
      rfl
    refine ⟨⟨funcinfo.name, funcinfo.javaParameters.map converted, (funcinfo.results.take 1).map converted⟩, ?_, rfl⟩
    unfold processJavaFuncInfo
    rw [hd]
    exact if_pos h

/-- `void echo(int id, String text)` -/
def echo : FuncInfo :=
  ⟨"echo", [⟨"id", "int"⟩, ⟨"text", "String"⟩], [⟨"result", "void"⟩], ['i', 's', '-', '>', 's']⟩

theorem echo_declares : Declares echo ['i', 's'] ['s'] :=
  ((processJavaFuncInfo_declares_iff echo).1 ['i', 's'] ['s'] rfl (by simp [typemap])
    (by simp [echo, FuncInfo.javaParameters, startAt])).mpr (.inl (by simp [echo, startAt]))

/-- `void echo(AsyncReturn<String> ret, int id)` -/
def asyncEcho : FuncInfo :=
  ⟨"echo", [⟨"ret", "AsyncReturn"⟩, ⟨"id", "int"⟩], [⟨"result", "void"⟩], ['i', '-', '>', 's']⟩

/-- The name of the second Java parameter is put on a second variable, which is not there. -/
theorem asyncEcho_raises : processJavaFuncInfo asyncEcho = .error .indexError ∧ ¬ Declares asyncEcho ['i'] ['s'] := by
  have hraises : processJavaFuncInfo asyncEcho = .error .indexError := by decide
  refine ⟨hraises, ?_⟩
  rintro ⟨fn, hfn, -⟩
  rw [hraises] at hfn
  cases hfn

end PxpRpc.Tools
