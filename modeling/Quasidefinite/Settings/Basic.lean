import Quasidefinite.Scalar
import Quasidefinite.Status

/-!
# Settings

The settings of the solvers, their standard values, and the test that a solver makes before it
uses them (`Settings.validate`). Settings can also be drafted field by field (`Settings.Draft`);
a draft is tested only for the fields that name an engine or scale the ordering.
-/

namespace Quasidefinite

/-! ## 1. Factorization engines -/

/-- The programs that can factor the matrix of the direct method. -/
inductive Engine
  /-- The row by row factorization of `Quasidefinite.Factor`. -/
  | rowByRow
  deriving DecidableEq, Repr

/-- The engine that a setting asks for. -/
def Engine.ofName? (name : String) : Option Engine :=
  if name = "auto" ∨ name = "qdldl" then some .rowByRow else none

/-! ## 2. Fields -/

namespace Settings

/-- The fields of the settings. -/
inductive Field
  | direct
  | engine
  | denseScale
  | regularize
  | regularizeThreshold
  | regularizeShift
  | refine
  | refineRelTol
  | refineAbsTol
  | refineMaxIter
  | refineStopRatio
  | cgMaxIter
  | precondition
  | warmStart
  | checkInputs
  deriving DecidableEq, Repr

/-- The name of a field in texts. -/
def Field.name : Field → String
  | .direct => "direct_kkt_solver"
  | .engine => "direct_solve_method"
  | .denseScale => "amd_dense_scale"
  | .regularize => "dynamic_regularization_enable"
  | .regularizeThreshold => "dynamic_regularization_eps"
  | .regularizeShift => "dynamic_regularization_delta"
  | .refine => "iterative_refinement_enable"
  | .refineRelTol => "iterative_refinement_reltol"
  | .refineAbsTol => "iterative_refinement_abstol"
  | .refineMaxIter => "iterative_refinement_max_iter"
  | .refineStopRatio => "iterative_refinement_stop_ratio"
  | .cgMaxIter => "cg_max_iter"
  | .precondition => "cg_preconditioner_enable"
  | .warmStart => "warm_start_from_previous"
  | .checkInputs => "check_inputs"

/-- All fields, in the order in which they are written. -/
def Field.all : List Field :=
  [.direct, .engine, .denseScale, .regularize, .regularizeThreshold, .regularizeShift, .refine,
    .refineRelTol, .refineAbsTol, .refineMaxIter, .refineStopRatio, .cgMaxIter, .precondition,
    .warmStart, .checkInputs]

/-- The field with the given name. -/
def Field.ofName? (name : String) : Option Field :=
  Field.all.find? fun f => f.name == name

end Settings

/-- Why settings are refused. -/
inductive SettingsError
  /-- A field has a value out of range. -/
  | badValue (field : Settings.Field)
  deriving DecidableEq, Repr

/-- The text shown for refused settings. -/
def SettingsError.message : SettingsError → String
  | .badValue field => "Bad value for field \"" ++ field.name ++ "\""

/-! ## 3. Settings -/

/-- The settings of the solvers. -/
structure Settings (α : Type) where
  /-- Whether the whole matrix is factored; otherwise conjugate gradients are used. -/
  direct : Bool
  /-- The name of the engine that factors the matrix. -/
  engine : String
  /-- What counts as a dense row when an order is chosen. -/
  denseScale : Float
  /-- Whether pivots are regularized. -/
  regularize : Bool
  /-- The least pivot, times its sign, that is not regularized. -/
  regularizeThreshold : α
  /-- The pivot, times its sign, that replaces those that are. -/
  regularizeShift : α
  /-- Whether solutions of the direct method are refined. -/
  refine : Bool
  /-- The residual, relative to the right hand side, at which refinement stops. -/
  refineRelTol : α
  /-- The residual at which refinement stops in any case. -/
  refineAbsTol : α
  /-- The largest number of refinement steps. -/
  refineMaxIter : UInt32
  /-- The factor by which a refinement step has to reduce the residual. -/
  refineStopRatio : α
  /-- The largest number of conjugate gradient steps; zero leaves the choice to the solver. -/
  cgMaxIter : UInt32
  /-- Whether conjugate gradients are preconditioned. -/
  precondition : Bool
  /-- Whether conjugate gradients start from the previous solution. -/
  warmStart : Bool
  /-- Whether matrices are checked when a solver is built and compared on updates. -/
  checkInputs : Bool
  deriving BEq

namespace Settings

variable {α : Type} [Scalar α]

/-- The standard settings. -/
def standard : Settings α where
  direct := true
  engine := "auto"
  denseScale := 1.5
  regularize := false
  regularizeThreshold := 1e-13
  regularizeShift := 2e-7
  refine := true
  refineRelTol := 1e-13
  refineAbsTol := 1e-12
  refineMaxIter := 10
  refineStopRatio := 5.0
  cgMaxIter := 0
  precondition := true
  warmStart := true
  checkInputs := true

/-- Fails unless a name is that of an engine. -/
def validateEngine (name : String) : Except SettingsError Unit :=
  if (Engine.ofName? name).isSome then .ok () else .error (.badValue .engine)

/-- Fails unless a scale for dense rows is positive and finite. -/
def validateDenseScale (scale : Float) : Except SettingsError Unit :=
  if Scalar.isPositiveFinite scale then .ok () else .error (.badValue .denseScale)

/-- Fails with the first field whose value a solver cannot work with. -/
def validate (s : Settings α) : Except SettingsError Unit := do
  validateEngine s.engine
  validateDenseScale s.denseScale
  if ¬ 0 < s.regularizeShift then throw (.badValue .regularizeShift)
  if ¬ 0 < s.refineStopRatio then throw (.badValue .refineStopRatio)

/-- The method that the settings ask for. -/
def method {α : Type} (s : Settings α) : Method := if s.direct then .direct else .indirect

/-! ## 4. Drafts -/

/-- Settings of which any field may be left open. -/
structure Draft (α : Type) where
  /-- See `Settings.direct`. -/
  direct : Option Bool := none
  /-- See `Settings.engine`. -/
  engine : Option String := none
  /-- See `Settings.denseScale`. -/
  denseScale : Option Float := none
  /-- See `Settings.regularize`. -/
  regularize : Option Bool := none
  /-- See `Settings.regularizeThreshold`. -/
  regularizeThreshold : Option α := none
  /-- See `Settings.regularizeShift`. -/
  regularizeShift : Option α := none
  /-- See `Settings.refine`. -/
  refine : Option Bool := none
  /-- See `Settings.refineRelTol`. -/
  refineRelTol : Option α := none
  /-- See `Settings.refineAbsTol`. -/
  refineAbsTol : Option α := none
  /-- See `Settings.refineMaxIter`. -/
  refineMaxIter : Option UInt32 := none
  /-- See `Settings.refineStopRatio`. -/
  refineStopRatio : Option α := none
  /-- See `Settings.cgMaxIter`. -/
  cgMaxIter : Option UInt32 := none
  /-- See `Settings.precondition`. -/
  precondition : Option Bool := none
  /-- See `Settings.warmStart`. -/
  warmStart : Option Bool := none
  /-- See `Settings.checkInputs`. -/
  checkInputs : Option Bool := none

namespace Draft

/-- The settings of a draft, with standard values for the fields left open. -/
def complete (d : Draft α) : Settings α :=
  let s : Settings α := .standard
  { direct := d.direct.getD s.direct
    engine := d.engine.getD s.engine
    denseScale := d.denseScale.getD s.denseScale
    regularize := d.regularize.getD s.regularize
    regularizeThreshold := d.regularizeThreshold.getD s.regularizeThreshold
    regularizeShift := d.regularizeShift.getD s.regularizeShift
    refine := d.refine.getD s.refine
    refineRelTol := d.refineRelTol.getD s.refineRelTol
    refineAbsTol := d.refineAbsTol.getD s.refineAbsTol
    refineMaxIter := d.refineMaxIter.getD s.refineMaxIter
    refineStopRatio := d.refineStopRatio.getD s.refineStopRatio
    cgMaxIter := d.cgMaxIter.getD s.cgMaxIter
    precondition := d.precondition.getD s.precondition
    warmStart := d.warmStart.getD s.warmStart
    checkInputs := d.checkInputs.getD s.checkInputs }

/-- Fails if the draft names no engine or scales dense rows by a useless value. -/
def validate {α : Type} (d : Draft α) : Except SettingsError Unit := do
  if let some name := d.engine then validateEngine name
  if let some scale := d.denseScale then validateDenseScale scale

/-- The settings of a draft that passes the test for drafts. -/
def build (d : Draft α) : Except SettingsError (Settings α) := do
  d.validate
  pure d.complete

end Draft

end Settings

end Quasidefinite
