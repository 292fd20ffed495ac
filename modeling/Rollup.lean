import Rollup.Aggregate.Producers
import Rollup.Histogram.Estimate
import Rollup.Histogram.Statistics
import Rollup.Source
import Rollup.Proofs.Aggregate.Ingestion
import Rollup.Proofs.Aggregate.PartialAverage
import Rollup.Proofs.Producers.Replay
import Rollup.Proofs.Producers.Release
import Rollup.Proofs.Sequence.Tape
import Rollup.Proofs.Sequence.Readers
import Rollup.Proofs.Aggregate.Soundness
import Rollup.Proofs.Aggregate.Conformance
import Rollup.Proofs.Batch.Repacking
import Rollup.Proofs.Histogram.EquiWidth
import Rollup.Proofs.Aggregate.Isolation
import Rollup.Proofs.Sequence.Passes
import Rollup.Proofs.Aggregate.Distributive
import Rollup.Proofs.Aggregate.RowOrder
import Rollup.Proofs.Aggregate.Export
import Rollup.Proofs.Aggregate.PartialTotals
import Rollup.Proofs.Aggregate.Mean
import Rollup.Proofs.Aggregate.Additive
import Rollup.Proofs.Aggregate.Requirements
import Rollup.Proofs.Histogram.Fractions
import Rollup.Proofs.Histogram.Ranges
import Rollup.Proofs.Batch.Faults
import Rollup.Proofs.Histogram.Concentration
import Rollup.Proofs.Histogram.Intervals
import Rollup.Proofs.Sequence.Positions
import Rollup.Proofs.Sequence.Resumption
