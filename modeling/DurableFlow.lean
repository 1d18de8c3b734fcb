import DurableFlow.Alarms
import DurableFlow.Assembly
import DurableFlow.Behaviour
import DurableFlow.Bus
import DurableFlow.Chain
import DurableFlow.Context
import DurableFlow.Definition
import DurableFlow.Engine
import DurableFlow.Engine.Course
import DurableFlow.Engine.Effects
import DurableFlow.Engine.Moves
import DurableFlow.Error
import DurableFlow.Event
import DurableFlow.Json.Document
import DurableFlow.Json.Double
import DurableFlow.Json.Shape
import DurableFlow.Json.Slots
import DurableFlow.Json.Value
import DurableFlow.Outcome
import DurableFlow.Plan
import DurableFlow.Portrait
import DurableFlow.Position
import DurableFlow.Proofs.Assembly.LabelIndex
import DurableFlow.Proofs.Assembly.SettingsDecoding
import DurableFlow.Proofs.Assembly.StartupOrder
import DurableFlow.Proofs.Assembly.ValueTexts
import DurableFlow.Proofs.Cancellation.CancelledCallers
import DurableFlow.Proofs.Cancellation.CancelledChains
import DurableFlow.Proofs.Cancellation.CancelledDelays
import DurableFlow.Proofs.Cancellation.CancelledRests
import DurableFlow.Proofs.Cancellation.CancelledRuns
import DurableFlow.Proofs.Delays.DelayEntries
import DurableFlow.Proofs.Delays.PendingDelays
import DurableFlow.Proofs.Delays.Punctuality
import DurableFlow.Proofs.Delays.Surroundings
import DurableFlow.Proofs.Delays.Transparency
import DurableFlow.Proofs.Events.EventPassing
import DurableFlow.Proofs.Events.EventTakings
import DurableFlow.Proofs.Events.ResumedInstances
import DurableFlow.Proofs.Events.StraightDefinitions
import DurableFlow.Proofs.Families.Descendants
import DurableFlow.Proofs.Families.MemberNumbers
import DurableFlow.Proofs.Families.Members
import DurableFlow.Proofs.Families.PrivateTokens
import DurableFlow.Proofs.Families.RecalledDeeds
import DurableFlow.Proofs.Histories.ChainLives
import DurableFlow.Proofs.Histories.FrameStacks
import DurableFlow.Proofs.Histories.History
import DurableFlow.Proofs.Histories.MoveEffects
import DurableFlow.Proofs.Histories.OutsideIncidents
import DurableFlow.Proofs.Histories.Paths
import DurableFlow.Proofs.Histories.Rounds
import DurableFlow.Proofs.Histories.StoredRecords
import DurableFlow.Proofs.Histories.Stories
import DurableFlow.Proofs.Histories.Turns
import DurableFlow.Proofs.Isolation.Independence
import DurableFlow.Proofs.Isolation.MirroredActs
import DurableFlow.Proofs.Isolation.MirroredMoves
import DurableFlow.Proofs.Isolation.Mirrors
import DurableFlow.Proofs.NestedRuns.AwaitedCalls
import DurableFlow.Proofs.NestedRuns.ChoicesAndBranches
import DurableFlow.Proofs.NestedRuns.Circumstances
import DurableFlow.Proofs.NestedRuns.Descents
import DurableFlow.Proofs.NestedRuns.GuardedEngines
import DurableFlow.Proofs.NestedRuns.Ladders
import DurableFlow.Proofs.NestedRuns.PanicContainment
import DurableFlow.Proofs.NestedRuns.Resumptions
import DurableFlow.Proofs.NestedRuns.UnawaitedCalls
import DurableFlow.Proofs.NestedRuns.UnawaitedRuns
import DurableFlow.Proofs.NestedRuns.UnawaitedSteps
import DurableFlow.Proofs.Positions.ForwardJumps
import DurableFlow.Proofs.Positions.PositionInvariant
import DurableFlow.Proofs.Positions.PositionRanges
import DurableFlow.Proofs.Positions.Restarts
import DurableFlow.Proofs.Positions.RestingChains
import DurableFlow.Proofs.Positions.StoredPositions
import DurableFlow.Proofs.Publications.Announcements
import DurableFlow.Proofs.Publications.Journal
import DurableFlow.Proofs.Runs.Progress
import DurableFlow.Proofs.Runs.RunsToEnds
import DurableFlow.Proofs.Runs.StoriesWithChains
import DurableFlow.Proofs.Services.BackingAgreement
import DurableFlow.Proofs.Services.BusHistories
import DurableFlow.Proofs.Services.Deliveries
import DurableFlow.Proofs.Services.Receivers
import DurableFlow.Proofs.Services.Subscriptions
import DurableFlow.Proofs.Services.TimerFirings
import DurableFlow.Proofs.Settlement.BrokenPromises
import DurableFlow.Proofs.Settlement.KeptPromises
import DurableFlow.Proofs.Settlement.KnownEnds
import DurableFlow.Proofs.Settlement.Promises
import DurableFlow.Proofs.Settlement.Verdicts
import DurableFlow.Proofs.Settlement.WaitingCallers
import DurableFlow.Proofs.Soundness.Accounts
import DurableFlow.Proofs.Soundness.Frames
import DurableFlow.Proofs.Soundness.Moves
import DurableFlow.Proofs.Soundness.Openings
import DurableFlow.Proofs.Soundness.Simulation
import DurableFlow.Proofs.Soundness.SoundEngines
import DurableFlow.Proofs.Steps.OutcomePlans
import DurableFlow.Proofs.Steps.Returns
import DurableFlow.Proofs.Termination.Ranks
import DurableFlow.Proofs.Termination.Readiness
import DurableFlow.Proofs.Termination.Termination
import DurableFlow.Proofs.Termination.WorkLeft
import DurableFlow.Proofs.Waiting.AwaitedCompletions
import DurableFlow.Proofs.Waiting.CallsThatWait
import DurableFlow.Proofs.Waiting.UnawaitedEngines
import DurableFlow.Proofs.Waiting.UnawaitedMoves
import DurableFlow.Proofs.Waiting.WaitingUnseen
import DurableFlow.Registry
import DurableFlow.Script.Blueprint
import DurableFlow.Script.Expression
import DurableFlow.Script.Operation
import DurableFlow.Script.Written
import DurableFlow.Services
import DurableFlow.Session
import DurableFlow.Settings
import DurableFlow.Step
import DurableFlow.Store
import DurableFlow.Store.Database
import DurableFlow.Switchboard
import DurableFlow.Table
import DurableFlow.Text
import DurableFlow.Text.Quoted
import DurableFlow.Time.Calendar
import DurableFlow.Time.Instant
import DurableFlow.Time.Timestamp
import DurableFlow.Timers
import DurableFlow.Token
import DurableFlow.Trial
import DurableFlow.Uuid
