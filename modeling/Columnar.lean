import Columnar.Classification
import Columnar.Estimator.RowPlan
import Columnar.Json.ConfigText
import Columnar.Json.EncodingText
import Columnar.Proofs.Bitmap.Pattern
import Columnar.Proofs.Classification.BySize
import Columnar.Proofs.Classification.Rearranged
import Columnar.Proofs.Estimator.AppendedRows
import Columnar.Proofs.Estimator.CounterLimit
import Columnar.Proofs.Estimator.ExactCounts
import Columnar.Proofs.Estimator.FullSample
import Columnar.Proofs.Estimator.NonzeroCells
import Columnar.Proofs.Estimator.Orientation
import Columnar.Proofs.Estimator.Pattern
import Columnar.Proofs.Estimator.SampleOutcomes
import Columnar.Proofs.Footprint.BlockGrowth
import Columnar.Proofs.Footprint.Choice
import Columnar.Proofs.Footprint.Exact
import Columnar.Proofs.Bitmap.Stretches
import Columnar.Proofs.Factors.Runs
import Columnar.Proofs.Factors.Bounds
import Columnar.Proofs.Estimator.RearrangedRows
import Columnar.Proofs.Estimator.WiderGroups
import Columnar.Proofs.Pricing.Questions
import Columnar.Proofs.Sample.RepeatedTuples
import Columnar.Proofs.Sample.NeighbourRuns
import Columnar.Proofs.Sample.DrawnRows
import Columnar.Proofs.Estimator.SampleSize
import Columnar.Proofs.Table.Columns
import Columnar.Proofs.Sample.RowStatistics
import Columnar.Proofs.Json.SizesText
import Columnar.Proofs.Json.ConfigText
