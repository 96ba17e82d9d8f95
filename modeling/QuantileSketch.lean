import QuantileSketch.Accuracy
import QuantileSketch.Decimal.Scientific
import QuantileSketch.Image
import QuantileSketch.Item.Integer
import QuantileSketch.Item.Text
import QuantileSketch.Proofs.Agreement
import QuantileSketch.Proofs.Bisection
import QuantileSketch.Proofs.Brackets
import QuantileSketch.Proofs.Buckets
import QuantileSketch.Proofs.Canonical
import QuantileSketch.Proofs.Capacity
import QuantileSketch.Proofs.Draws
import QuantileSketch.Proofs.ExactMerge
import QuantileSketch.Proofs.Extremes
import QuantileSketch.Proofs.Generator
import QuantileSketch.Proofs.Grammar
import QuantileSketch.Proofs.Headroom
import QuantileSketch.Proofs.Locating
import QuantileSketch.Proofs.Merging
import QuantileSketch.Proofs.Oblivious
import QuantileSketch.Proofs.OrderStatistics
import QuantileSketch.Proofs.OrderedImage
import QuantileSketch.Proofs.Passes
import QuantileSketch.Proofs.RankError
import QuantileSketch.Proofs.ReadExtremes
import QuantileSketch.Proofs.RelabelledAnswers
import QuantileSketch.Proofs.Segments
import QuantileSketch.Proofs.Settling
import QuantileSketch.Proofs.Strides
import QuantileSketch.Proofs.Truncation
import QuantileSketch.Proofs.Unbiased
import QuantileSketch.Proofs.Validation
import QuantileSketch.Random.Replay
import QuantileSketch.Random.XorShift
import QuantileSketch.Sketch.Live
import QuantileSketch.Sketch.Query
