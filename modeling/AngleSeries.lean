import AngleSeries.Action
import AngleSeries.Canonical
import AngleSeries.CommandLine.Command
import AngleSeries.CommandLine.Complaint
import AngleSeries.CommandLine.ComplaintParts
import AngleSeries.CommandLine.Documents
import AngleSeries.CommandLine.Help
import AngleSeries.CommandLine.Options
import AngleSeries.Config.Basic
import AngleSeries.Config.Reading
import AngleSeries.Config.Text
import AngleSeries.Decimal.Arithmetic
import AngleSeries.Decimal.Basic
import AngleSeries.Decimal.Fixed
import AngleSeries.Decimal.Power
import AngleSeries.Decimal.Reading
import AngleSeries.Decimal.Text
import AngleSeries.Double.Arithmetic
import AngleSeries.Double.Basic
import AngleSeries.Double.Reading
import AngleSeries.Double.Shortest
import AngleSeries.Double.Sine
import AngleSeries.Fault
import AngleSeries.Fraction.Basic
import AngleSeries.Fraction.Order
import AngleSeries.Fraction.Reading
import AngleSeries.Hash
import AngleSeries.Instant.Basic
import AngleSeries.Instant.Reading
import AngleSeries.Instant.Token
import AngleSeries.Json.Basic
import AngleSeries.Json.Parser
import AngleSeries.Json.Printer
import AngleSeries.Main
import AngleSeries.Members
import AngleSeries.Notation
import AngleSeries.Numeral
import AngleSeries.Proofs.Acceptance
import AngleSeries.Proofs.AcceptedConfigs
import AngleSeries.Proofs.Agreement
import AngleSeries.Proofs.Arrangement
import AngleSeries.Proofs.BinaryRounding
import AngleSeries.Proofs.CanonicalForm
import AngleSeries.Proofs.CollectedIssues
import AngleSeries.Proofs.CompletedRuns
import AngleSeries.Proofs.CountTexts
import AngleSeries.Proofs.CrossProducts
import AngleSeries.Proofs.DecimalFractions
import AngleSeries.Proofs.DecimalTexts
import AngleSeries.Proofs.DecimalValue
import AngleSeries.Proofs.Digits
import AngleSeries.Proofs.DocumentTexts
import AngleSeries.Proofs.Documents
import AngleSeries.Proofs.DrawsAsNumbers
import AngleSeries.Proofs.ExactFractions
import AngleSeries.Proofs.ExactValues
import AngleSeries.Proofs.FractionOrder
import AngleSeries.Proofs.FractionProducts
import AngleSeries.Proofs.FractionRoundTrip
import AngleSeries.Proofs.Gathering
import AngleSeries.Proofs.HashTexts
import AngleSeries.Proofs.InsertionOrder
import AngleSeries.Proofs.KeyOrder
import AngleSeries.Proofs.LosslessTexts
import AngleSeries.Proofs.Magnitudes
import AngleSeries.Proofs.MemberOrder
import AngleSeries.Proofs.NamedMembers
import AngleSeries.Proofs.NearestWholes
import AngleSeries.Proofs.NumberTexts
import AngleSeries.Proofs.OptionGroups
import AngleSeries.Proofs.OracleSessions
import AngleSeries.Proofs.Outcomes
import AngleSeries.Proofs.OverheardSeries
import AngleSeries.Proofs.PacedRuns
import AngleSeries.Proofs.Pacing
import AngleSeries.Proofs.PolicyChoice
import AngleSeries.Proofs.QuotedTexts
import AngleSeries.Proofs.RatioAgreement
import AngleSeries.Proofs.ReachedValues
import AngleSeries.Proofs.ReadNumerals
import AngleSeries.Proofs.Recording
import AngleSeries.Proofs.ReorderedOptions
import AngleSeries.Proofs.RewrittenConfigs
import AngleSeries.Proofs.RolledHashes
import AngleSeries.Proofs.RoundingOrder
import AngleSeries.Proofs.RuleEffects
import AngleSeries.Proofs.RunDocuments
import AngleSeries.Proofs.RunIdentity
import AngleSeries.Proofs.RunOutcomes
import AngleSeries.Proofs.SameDocuments
import AngleSeries.Proofs.SecretFraction
import AngleSeries.Proofs.SecretLimits
import AngleSeries.Proofs.SecretOrder
import AngleSeries.Proofs.SecretRounding
import AngleSeries.Proofs.SecretValue
import AngleSeries.Proofs.SeparateFields
import AngleSeries.Proofs.Sequencing
import AngleSeries.Proofs.SettingSources
import AngleSeries.Proofs.SettledDocuments
import AngleSeries.Proofs.SettledOptions
import AngleSeries.Proofs.ShortestDigits
import AngleSeries.Proofs.SignificantDigits
import AngleSeries.Proofs.SingleSource
import AngleSeries.Proofs.SplitSeries
import AngleSeries.Proofs.StepCounter
import AngleSeries.Proofs.StepsComplaints
import AngleSeries.Proofs.TidiedValues
import AngleSeries.Proofs.Trimming
import AngleSeries.Proofs.WholeDoubles
import AngleSeries.Proofs.WholeTurns
import AngleSeries.Proofs.WrappedCounter
import AngleSeries.Proofs.WrittenHashes
import AngleSeries.Proofs.WrittenKeys
import AngleSeries.Rotation.Angle
import AngleSeries.Rotation.Generator
import AngleSeries.Rotation.Oracle
import AngleSeries.Rounding
import AngleSeries.Run
import AngleSeries.Sequence.Rule
import AngleSeries.Sequence.Sequencer
import AngleSeries.Series
import AngleSeries.Sha256
import AngleSeries.Text.Basic
import AngleSeries.Text.Quoted
import AngleSeries.Transform.Draft
import AngleSeries.Transform.Evaluation
import AngleSeries.Transform.Inputs
import AngleSeries.Value.Basic
import AngleSeries.Value.Document
import AngleSeries.Value.Number
import AngleSeries.Value.Parts
import AngleSeries.Value.Text
