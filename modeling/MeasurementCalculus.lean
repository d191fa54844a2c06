import MeasurementCalculus.Random.ChaCha
import MeasurementCalculus.Simulator
import MeasurementCalculus.StandardForm
import MeasurementCalculus.Template.Library
import MeasurementCalculus.Template.Draft
import MeasurementCalculus.Text.Message
import MeasurementCalculus.Text.Result
import MeasurementCalculus.Proofs.Safety
import MeasurementCalculus.Proofs.BornRule
import MeasurementCalculus.Proofs.Standardization
import MeasurementCalculus.Proofs.Compilation
import MeasurementCalculus.Proofs.Breaches
import MeasurementCalculus.Proofs.Linearity
import MeasurementCalculus.Proofs.NormalForm
import MeasurementCalculus.Proofs.Sampling
import MeasurementCalculus.Proofs.Draws
import MeasurementCalculus.Proofs.Conservation
import MeasurementCalculus.Proofs.Floor
import MeasurementCalculus.Proofs.Commutation
import MeasurementCalculus.Proofs.NoSignalling
import MeasurementCalculus.Proofs.Relabelling
import MeasurementCalculus.Proofs.Records
import MeasurementCalculus.Proofs.Causality
import MeasurementCalculus.Proofs.Boxes
import MeasurementCalculus.Proofs.SignalFlow
import MeasurementCalculus.Proofs.FixedPoints
import MeasurementCalculus.Proofs.Guided
import MeasurementCalculus.Proofs.Collapse
import MeasurementCalculus.Proofs.Parity
import MeasurementCalculus.Proofs.Rewriting
import MeasurementCalculus.Proofs.Batches
import MeasurementCalculus.Proofs.Gaps
import MeasurementCalculus.Proofs.Appending
import MeasurementCalculus.Proofs.Regrouping
import MeasurementCalculus.Proofs.Marginals
import MeasurementCalculus.Proofs.Frequencies
import MeasurementCalculus.Proofs.Distance
import MeasurementCalculus.Proofs.AbsorbedMeasurement
import MeasurementCalculus.Proofs.PauliAlgebra
import MeasurementCalculus.Proofs.ProductStates
